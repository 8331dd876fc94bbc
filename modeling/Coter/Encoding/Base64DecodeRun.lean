import Coter.Encoding.Base64Decode
import Coter.Encoding.Base64Run

/-!
# What the base 64 decoder accepts

* `decoded`, `Accepted`, `decode_spec`: the decoder checks each quad by itself and stops
  at the first one that fails;
* `round_trip`: it takes back what `ct_base64_encode` made of any bytes, and neither of
  them writes behind its output;
* `canonical_iff`, `canonical_rfc4648`, `rfc4648_decoded`: canonical strings are the
  encodings of byte strings;
* `strict_iff`: which strings the decoder takes although they are not canonical;
* `failure_empty_iff`: when a failure leaves the empty string.
-/

namespace Coter.Base64

open Lib.Base64 (group sextet)

/-- The 64 characters of the alphabet. -/
def digits : List UInt8 := alphabet.map fun c => UInt8.ofNat c.toNat

/-- The number that a digit stands for. -/
def value (c : UInt8) : Nat := digits.idxOf c

theorem value_lt {c : UInt8} (h : c ∈ digits) : value c < 64 := List.idxOf_lt_length_of_mem h

theorem decodeSingle_eq (c : UInt8) :
    decodeSingle c = if c ∈ digits then (value c : Int) else if c = padding then 64 else -1 := by
  have all : ∀ n : Fin 256, decodeSingle (UInt8.ofNat n) =
      if UInt8.ofNat n ∈ digits then (value (UInt8.ofNat n) : Int)
      else if UInt8.ofNat n = padding then 64 else -1 := by decide +kernel
  have this := all ⟨c.toNat, c.toNat_lt⟩
  rwa [UInt8.ofNat_toNat] at this

theorem padding_not_digit : padding ∉ digits := by decide

theorem digit_value {c : UInt8} (h : c ∈ digits) : digit (value c) = c := by
  have all : ∀ n : Fin 256, UInt8.ofNat n ∈ digits → digit (value (UInt8.ofNat n)) = UInt8.ofNat n := by
    decide +kernel
  have this := all ⟨c.toNat, c.toNat_lt⟩
  rw [UInt8.ofNat_toNat] at this
  exact this h

theorem value_digit {n : Nat} (h : n < 64) : digit n ∈ digits ∧ value (digit n) = n := by
  have all : ∀ n : Fin 64, digit n ∈ digits ∧ value (digit n) = n := by decide +kernel
  exact all ⟨n, h⟩

/-! ## Eight bits of six -/

theorem byte0_toNat {a b : Nat} (ha : a < 64) (hb : b < 64) :
    (byte0 a b).toNat = a * 4 + b / 16 := by
  have low : b >>> 4 < 2 ^ 2 := by
    rw [Nat.shiftRight_eq_div_pow]
    omega
  rw [byte0, UInt8.toNat_ofNat', Int.toNat_natCast, Int.toNat_natCast,
    ← Nat.shiftLeft_add_eq_or_of_lt low, Nat.shiftLeft_eq, Nat.shiftRight_eq_div_pow]
  omega

theorem byte1_toNat {b c : Nat} (hc : c < 64) :
    (byte1 b c).toNat = b % 16 * 16 + c / 4 := by
  have low : c >>> 2 < 2 ^ 4 := by
    rw [Nat.shiftRight_eq_div_pow]
    omega
  rw [byte1, UInt8.toNat_ofNat', Int.toNat_natCast, Int.toNat_natCast,
    ← Nat.shiftLeft_add_eq_or_of_lt low, Nat.shiftLeft_eq, Nat.shiftRight_eq_div_pow]
  omega

theorem byte2_toNat {c d : Nat} (hd : d < 64) :
    (byte2 c d).toNat = c % 4 * 64 + d := by
  have low : d < 2 ^ 6 := hd
  rw [byte2, UInt8.toNat_ofNat', Int.toNat_natCast, Int.toNat_natCast,
    ← Nat.shiftLeft_add_eq_or_of_lt low, Nat.shiftLeft_eq]
  omega

theorem bytes_of_group (x y z : UInt8) :
    byte0 (sextet (group x y z) 0) (sextet (group x y z) 1) = x ∧
      byte1 (sextet (group x y z) 1) (sextet (group x y z) 2) = y ∧
      byte2 (sextet (group x y z) 2) (sextet (group x y z) 3) = z := by
  have hx := x.toNat_lt
  have hy := y.toNat_lt
  have hz := z.toNat_lt
  have first := sextet_first x y z
  refine ⟨?_, ?_, ?_⟩
  · apply UInt8.toNat_inj.1
    rw [byte0_toNat (sextet_lt _ _) (sextet_lt _ _)]
    simp only [sextet, group, Fin.val_zero, Fin.val_one]
    omega
  · apply UInt8.toNat_inj.1
    rw [byte1_toNat (sextet_lt _ _)]
    simp only [sextet, group, Fin.val_one, Fin.val_two]
    omega
  · apply UInt8.toNat_inj.1
    rw [byte2_toNat (sextet_lt _ _)]
    simp only [sextet, group, Fin.val_two, show ((3 : Fin 4) : Nat) = 3 from rfl]
    omega

/-! ## The loop -/

/-- The bytes of a quad. -/
def quad (c0 c1 c2 c3 : UInt8) : List UInt8 :=
  byte0 (decodeSingle c0) (decodeSingle c1) ::
    if c2 = padding then []
    else byte1 (decodeSingle c1) (decodeSingle c2) ::
      if c3 = padding then [] else [byte2 (decodeSingle c2) (decodeSingle c3)]

/-- The check of a quad: each position by itself. -/
def Passes (c0 c1 c2 c3 : UInt8) : Prop :=
  c0 ∈ digits ∧ c1 ∈ digits ∧ (c2 ∈ digits ∨ c2 = padding) ∧ (c3 ∈ digits ∨ c3 = padding)

instance (c0 c1 c2 c3 : UInt8) : Decidable (Passes c0 c1 c2 c3) :=
  inferInstanceAs (Decidable (_ ∧ _ ∧ _ ∧ _))

/-- Every quad passes the check. What is left behind the last whole quad is not looked at. -/
def Accepted : List UInt8 → Prop
  | c0 :: c1 :: c2 :: c3 :: rest => Passes c0 c1 c2 c3 ∧ Accepted rest
  | _ => True

instance decidableAccepted : DecidablePred Accepted
  | c0 :: c1 :: c2 :: c3 :: rest =>
    have := decidableAccepted rest
    inferInstanceAs (Decidable (Passes c0 c1 c2 c3 ∧ Accepted rest))
  | [] | [_] | [_, _] | [_, _, _] => inferInstanceAs (Decidable True)

/-- The bytes of the quads up to the first one that does not pass. -/
def decoded : List UInt8 → List UInt8
  | c0 :: c1 :: c2 :: c3 :: rest =>
    if Passes c0 c1 c2 c3 then quad c0 c1 c2 c3 ++ decoded rest else []
  | _ => []

theorem decodeSingle_digit {c : UInt8} (h : c ∈ digits) : decodeSingle c = value c := by
  rw [decodeSingle_eq, if_pos h]

theorem decodeSingle_padding : decodeSingle padding = 64 := rfl

theorem decodeSingle_other {c : UInt8} (h : c ∉ digits) (hp : c ≠ padding) :
    decodeSingle c = -1 := by
  rw [decodeSingle_eq, if_neg h, if_neg hp]

theorem refused_iff (c : UInt8) : decodeSingle c = 64 ∨ decodeSingle c < 0 ↔ c ∉ digits := by
  by_cases h : c ∈ digits
  · have small := value_lt h
    rw [decodeSingle_digit h]
    exact iff_of_false (by omega) (not_not.2 h)
  · refine iff_of_true ?_ h
    by_cases hp : c = padding
    · exact Or.inl (hp ▸ decodeSingle_padding)
    · exact Or.inr (by rw [decodeSingle_other h hp]; decide)

theorem negative_iff (c : UInt8) : decodeSingle c < 0 ↔ ¬ (c ∈ digits ∨ c = padding) := by
  by_cases h : c ∈ digits
  · rw [decodeSingle_digit h]
    exact iff_of_false (by omega) (not_not.2 (Or.inl h))
  · by_cases hp : c = padding
    · rw [hp, decodeSingle_padding]
      exact iff_of_false (by decide) (not_not.2 (Or.inr rfl))
    · rw [decodeSingle_other h hp]
      exact iff_of_true (by decide) (not_or.2 ⟨h, hp⟩)

theorem fails_iff (c0 c1 c2 c3 : UInt8) :
    (decodeSingle c0 = 64 ∨ decodeSingle c0 < 0 ∨ decodeSingle c1 = 64 ∨ decodeSingle c1 < 0 ∨
      decodeSingle c2 < 0 ∨ decodeSingle c3 < 0) ↔ ¬ Passes c0 c1 c2 c3 := by
  rw [← or_assoc, refused_iff, ← or_assoc (a := decodeSingle c1 = 64), refused_iff, negative_iff,
    negative_iff, Passes]
  simp only [not_and_or]

theorem quad_length_le (c0 c1 c2 c3 : UInt8) : (quad c0 c1 c2 c3).length ≤ 3 := by
  unfold quad
  split_ifs <;> simp

theorem decoded_length_le (inp : List UInt8) : (decoded inp).length ≤ inp.length / 4 * 3 := by
  induction inp using decoded.induct with
  | case1 c0 c1 c2 c3 rest passes ih =>
    have three := quad_length_le c0 c1 c2 c3
    simp only [decoded, if_pos passes, List.length_append, List.length_cons]
    omega
  | case2 c0 c1 c2 c3 rest fails => simp [decoded, if_neg fails]
  | case3 inp few =>
    unfold decoded
    split
    · next c0 c1 c2 c3 rest => exact absurd rfl (few c0 c1 c2 c3 rest)
    · simp

/-- A quad that passes: its bytes, and the loop goes on behind them. -/
theorem decodeLoop_quad {c0 c1 c2 c3 : UInt8} (passes : Passes c0 c1 c2 c3) (rest : List UInt8)
    {out : List UInt8} {len : Nat} (room : len + 3 ≤ out.length) :
    decodeLoop (c0 :: c1 :: c2 :: c3 :: rest) out len =
      decodeLoop rest (Lib.Blocks.write out len (quad c0 c1 c2 c3))
        (len + (quad c0 c1 c2 c3).length) := by
  have first : store out len [byte0 (decodeSingle c0) (decodeSingle c1)] =
      .ok (Lib.Blocks.write out len [byte0 (decodeSingle c0) (decodeSingle c1)]) :=
    store_ok (by simp only [List.length_singleton]; omega)
  have second := store_behind (m := out) (o := len) (a := [byte0 (decodeSingle c0) (decodeSingle c1)])
    (b := [byte1 (decodeSingle c1) (decodeSingle c2)])
    (by simp only [List.length_singleton]; omega)
  have third := store_behind (m := out) (o := len)
    (a := [byte0 (decodeSingle c0) (decodeSingle c1)] ++ [byte1 (decodeSingle c1) (decodeSingle c2)])
    (b := [byte2 (decodeSingle c2) (decodeSingle c3)])
    (by simp only [List.length_append, List.length_singleton]; omega)
  have checked := (not_congr (fails_iff c0 c1 c2 c3)).2 (not_not.2 passes)
  rw [decodeLoop]
  simp only [if_neg checked, first, ok_bind]
  by_cases h2 : c2 = padding
  · simp [h2, quad]
  · simp only [if_pos (show c2 ≠ padding from h2)]
    rw [show len + 1 = len + [byte0 (decodeSingle c0) (decodeSingle c1)].length from rfl, second,
      ok_bind]
    by_cases h3 : c3 = padding
    · simp [h2, h3, quad]
    · simp only [if_pos (show c3 ≠ padding from h3)]
      rw [show len + 2 = len + ([byte0 (decodeSingle c0) (decodeSingle c1)] ++
        [byte1 (decodeSingle c1) (decodeSingle c2)]).length from rfl, third, ok_bind]
      simp [h2, h3, quad]

/-- What the loop writes: the bytes up to the first quad that does not pass, and the
terminator if there is none. -/
def written (inp : List UInt8) : List UInt8 := decoded inp ++ if Accepted inp then [0] else []

theorem written_length_le (inp : List UInt8) : (written inp).length ≤ inp.length / 4 * 3 + 1 := by
  have bytes := decoded_length_le inp
  unfold written
  split_ifs <;> simp only [List.length_append, List.length_singleton, List.length_nil] <;> omega

theorem decodeLoop_spec (inp : List UInt8) {out : List UInt8} {len : Nat}
    (room : len + (inp.length / 4 * 3 + 1) ≤ out.length) :
    decodeLoop inp out len = .ok (if Accepted inp then len + (decoded inp).length else 0,
      Lib.Blocks.write out len (written inp)) := by
  induction inp using decoded.induct generalizing out len with
  | case1 c0 c1 c2 c3 rest passes ih =>
    have three := quad_length_le c0 c1 c2 c3
    have behind := written_length_le rest
    simp only [List.length_cons] at room
    rw [decodeLoop_quad passes rest (by omega),
      ih (by rw [Lib.Blocks.write_length (by omega)]; omega),
      Lib.Blocks.write_write (by omega)]
    simp only [written, decoded, Accepted, passes, true_and, if_true, List.length_append,
      List.append_assoc, Nat.add_assoc]
  | case2 c0 c1 c2 c3 rest fails =>
    have checked := (fails_iff c0 c1 c2 c3).2 fails
    rw [decodeLoop]
    simp only [if_pos checked, written, decoded, Accepted, fails, false_and, if_false,
      List.append_nil, Lib.Blocks.write_nil]
  | case3 inp few =>
    have terminated : store out len [0] = .ok (Lib.Blocks.write out len [0]) :=
      store_ok (by simp only [List.length_singleton]; omega)
    match inp, few with
    | [], _ | [_], _ | [_, _], _ | [_, _, _], _ =>
      simp only [decodeLoop, terminated, ok_bind]
      rfl
    | c0 :: c1 :: c2 :: c3 :: rest, few => exact absurd rfl (few c0 c1 c2 c3 rest)

theorem emptied_ok {out : List UInt8} {outMax : Nat} (hmax : 0 < outMax)
    (hout : outMax ≤ out.length) : emptied out outMax = .ok (Lib.Blocks.write out 0 [0]) := by
  rw [emptied, if_pos hmax, store_ok (by simp only [List.length_singleton]; omega)]

theorem emptied_length {out : List UInt8} (h : 0 < out.length) :
    (Lib.Blocks.write out 0 [0]).length = out.length :=
  Lib.Blocks.write_length (by simp only [List.length_singleton]; omega)

/-- `ct_base64_decode` with enough room. -/
theorem decode_spec (data : List UInt8) {out : List UInt8} {outMax : Nat}
    (room : data.length / 4 * 3 + 1 ≤ outMax) (hout : outMax ≤ out.length) :
    decode (some data) data.length out outMax =
      .ok (if Accepted data then (decoded data).length else 0,
        Lib.Blocks.write (Lib.Blocks.write out 0 [0]) 0 (written data)) := by
  have whole : load data 0 data.length = .ok data := by
    rw [load_ok (by omega), Lib.Blocks.read, List.drop_zero, List.take_length]
  rw [decode, emptied_ok (by omega) hout, ok_bind, if_neg (by omega)]
  simp only [whole, ok_bind]
  rw [decodeLoop_spec data (by rw [emptied_length (by omega)]; omega), Nat.zero_add]

/-! ## Encoding and back -/

theorem digit_sextet (n : Nat) (i : Fin 4) : digit (sextet n i) ∈ digits :=
  (value_digit (sextet_lt n i)).1

theorem decodeSingle_sextet (n : Nat) (i : Fin 4) :
    decodeSingle (digit (sextet n i)) = sextet n i := by
  rw [decodeSingle_digit (digit_sextet n i), (value_digit (sextet_lt n i)).2]

theorem digit_ne_padding {c : UInt8} (h : c ∈ digits) : c ≠ padding := by
  rintro rfl
  exact padding_not_digit h

theorem sextet_ne_padding (n : Nat) (i : Fin 4) : digit (sextet n i) ≠ padding :=
  digit_ne_padding (digit_sextet n i)

/-- The decoder takes back what RFC 4648 makes of a byte string. -/
theorem decoded_rfc4648 (x : List UInt8) : Accepted (rfc4648 x) ∧ decoded (rfc4648 x) = x := by
  induction x using Lib.Base64.encode.induct with
  | case1 => exact ⟨trivial, rfl⟩
  | case2 a =>
    obtain ⟨first, -, -⟩ := bytes_of_group a 0 0
    have passes : Passes (digit (sextet (group a 0 0) 0)) (digit (sextet (group a 0 0) 1))
        padding padding := ⟨digit_sextet _ _, digit_sextet _ _, Or.inr rfl, Or.inr rfl⟩
    refine ⟨⟨passes, trivial⟩, ?_⟩
    simp only [rfc4648, Lib.Base64.encode, decoded, if_pos passes, quad, if_true,
      decodeSingle_sextet, first, List.append_nil]
  | case3 a b =>
    obtain ⟨first, second, -⟩ := bytes_of_group a b 0
    have passes : Passes (digit (sextet (group a b 0) 0)) (digit (sextet (group a b 0) 1))
        (digit (sextet (group a b 0) 2)) padding :=
      ⟨digit_sextet _ _, digit_sextet _ _, Or.inl (digit_sextet _ _), Or.inr rfl⟩
    refine ⟨⟨passes, trivial⟩, ?_⟩
    simp only [rfc4648, Lib.Base64.encode, decoded, if_pos passes, quad, if_true,
      if_neg (sextet_ne_padding _ _), decodeSingle_sextet, first, second, List.append_nil]
  | case4 a b c rest ih =>
    obtain ⟨first, second, third⟩ := bytes_of_group a b c
    have passes : Passes (digit (sextet (group a b c) 0)) (digit (sextet (group a b c) 1))
        (digit (sextet (group a b c) 2)) (digit (sextet (group a b c) 3)) :=
      ⟨digit_sextet _ _, digit_sextet _ _, Or.inl (digit_sextet _ _), Or.inl (digit_sextet _ _)⟩
    refine ⟨⟨passes, ih.1⟩, ?_⟩
    have back : decoded (Lib.Base64.encode digit padding rest) = rest := ih.2
    simp only [rfc4648, Lib.Base64.encode, decoded, if_pos passes, quad,
      if_neg (sextet_ne_padding _ _), decodeSingle_sextet, first, second, third, back,
      List.cons_append, List.nil_append]

/-! ## Canonical strings -/

/-- Whole quads of digits, '=' only as the last one or two characters, and nothing in
the bits that the padding leaves unused. -/
structure Canonical (s : List UInt8) : Prop where
  quads : 4 ∣ s.length
  digits : ∀ c ∈ s, c ∈ digits ∨ c = padding
  last : ∀ i : Nat, s[i]? = some padding → s.length ≤ i + 2
  both : s[s.length - 2]? = some padding → s[s.length - 1]? = some padding
  two : ∀ c ∈ Base64.digits, s[s.length - 1]? = some padding → s[s.length - 2]? = some c →
    value c % 4 = 0
  four : ∀ c ∈ Base64.digits, s[s.length - 2]? = some padding → s[s.length - 3]? = some c →
    value c % 16 = 0

/-- Ways in which a string is not canonical although its quads pass. -/
inductive Lapse (s : List UInt8) : Prop
  | part (short : ¬ 4 ∣ s.length)
  | inside (i : Nat) (pad : s[i]? = some padding) (behind : i + 2 < s.length)
  | before (pad : s[s.length - 2]? = some padding) (more : s[s.length - 1]? ≠ some padding)
  | two (c : UInt8) (digit : c ∈ digits) (pad : s[s.length - 1]? = some padding)
      (before : s[s.length - 2]? = some c) (unused : value c % 4 ≠ 0)
  | four (c : UInt8) (digit : c ∈ digits) (pad : s[s.length - 2]? = some padding)
      (before : s[s.length - 3]? = some c) (unused : value c % 16 ≠ 0)

variable {s : List UInt8}

theorem accepted_iff (s : List UInt8) : Accepted s ↔ ∀ (i : Nat) (c : UInt8), s[i]? = some c →
    i < s.length / 4 * 4 → c ∈ digits ∨ c = padding ∧ 2 ≤ i % 4 := by
  match s with
  | c0 :: c1 :: c2 :: c3 :: rest =>
    have ih := accepted_iff rest
    constructor
    · rintro ⟨⟨h0, h1, h2, h3⟩, hrest⟩ i c hi bound
      simp only [List.length_cons] at bound
      match i with
      | 0 =>
        obtain rfl : c0 = c := by simpa using hi
        exact Or.inl h0
      | 1 =>
        obtain rfl : c1 = c := by simpa using hi
        exact Or.inl h1
      | 2 =>
        obtain rfl : c2 = c := by simpa using hi
        exact h2.imp_right fun h => ⟨h, by decide⟩
      | 3 =>
        obtain rfl : c3 = c := by simpa using hi
        exact h3.imp_right fun h => ⟨h, by decide⟩
      | i + 4 =>
        rw [Nat.add_mod_right]
        exact ih.1 hrest i c (by simpa using hi) (by omega)
    · intro h
      have low (i : Nat) (c : UInt8) (hi : (c0 :: c1 :: c2 :: c3 :: rest)[i]? = some c)
          (small : i < 4) := h i c hi (by simp only [List.length_cons]; omega)
      refine ⟨⟨?_, ?_, ?_, ?_⟩, ih.2 fun i c hi bound => ?_⟩
      · exact (low 0 c0 rfl (by decide)).resolve_right fun h => absurd h.2 (by decide)
      · exact (low 1 c1 rfl (by decide)).resolve_right fun h => absurd h.2 (by decide)
      · exact (low 2 c2 rfl (by decide)).imp_right And.left
      · exact (low 3 c3 rfl (by decide)).imp_right And.left
      · have this := h (i + 4) c (by simpa using hi) (by simp only [List.length_cons]; omega)
        rwa [Nat.add_mod_right] at this
  | [] | [_] | [_, _] | [_, _, _] =>
    refine iff_of_true trivial fun i c _ bound => absurd bound ?_
    simp

theorem canonical_iff (hs : s ≠ []) :
    Canonical s ↔ 4 ≤ s.length ∧ Accepted s ∧ ¬ Lapse s := by
  have positive := List.length_pos_of_ne_nil hs
  constructor
  · intro h
    have quads := h.quads
    refine ⟨by omega, (accepted_iff s).2 fun i c hi _ => ?_, ?_⟩
    · have bound := (List.getElem?_eq_some_iff.1 hi).1
      refine (h.digits c (List.mem_of_getElem? hi)).imp_right ?_
      rintro rfl
      have last := h.last i hi
      exact ⟨rfl, by omega⟩
    · intro lapse
      cases lapse with
      | part short => exact short quads
      | inside i pad behind => exact absurd (h.last i pad) (Nat.not_le.2 behind)
      | before pad more => exact more (h.both pad)
      | two c digit pad before unused => exact unused (h.two c digit pad before)
      | four c digit pad before unused => exact unused (h.four c digit pad before)
  · rintro ⟨-, accepted, none⟩
    have quads : 4 ∣ s.length := not_not.1 fun h => none (.part h)
    refine ⟨quads, fun c hc => ?_, fun i hi => ?_, fun pad => ?_, fun c digit pad before => ?_,
      fun c digit pad before => ?_⟩
    · obtain ⟨i, hi⟩ := List.mem_iff_getElem?.1 hc
      have bound := (List.getElem?_eq_some_iff.1 hi).1
      exact ((accepted_iff s).1 accepted i c hi (by omega)).imp_right And.left
    · exact Nat.le_of_not_lt fun behind => none (.inside i hi behind)
    · exact not_not.1 fun more => none (.before pad more)
    · exact not_not.1 fun unused => none (.two c digit pad before unused)
    · exact not_not.1 fun unused => none (.four c digit pad before unused)

theorem canonical_cons {c0 c1 c2 c3 : UInt8} {rest : List UInt8} (hrest : rest ≠ [])
    (whole : 4 ∣ rest.length) : Canonical (c0 :: c1 :: c2 :: c3 :: rest) ↔
      (c0 ∈ digits ∧ c1 ∈ digits ∧ c2 ∈ digits ∧ c3 ∈ digits) ∧ Canonical rest := by
  have positive := List.length_pos_of_ne_nil hrest
  have behind (k : Nat) (hk : k ≤ 4) :
      (c0 :: c1 :: c2 :: c3 :: rest)[(c0 :: c1 :: c2 :: c3 :: rest).length - k]? =
        rest[rest.length - k]? := by
    have shift : (c0 :: c1 :: c2 :: c3 :: rest).length - k = rest.length - k + 4 := by
      simp only [List.length_cons]
      omega
    rw [shift]
    rfl
  have one := behind 1 (by decide)
  have two := behind 2 (by decide)
  have three := behind 3 (by decide)
  constructor
  · intro h
    have front (i : Nat) (c : UInt8) (hi : (c0 :: c1 :: c2 :: c3 :: rest)[i]? = some c)
        (small : i < 4) : c ∈ digits := by
      refine (h.digits c (List.mem_of_getElem? hi)).resolve_right ?_
      rintro rfl
      have last := h.last i hi
      simp only [List.length_cons] at last
      omega
    refine ⟨⟨front 0 c0 rfl (by decide), front 1 c1 rfl (by decide), front 2 c2 rfl (by decide),
      front 3 c3 rfl (by decide)⟩, whole, fun c hc => h.digits c (by simp [hc]), fun i hi => ?_,
      ?_, ?_, ?_⟩
    · have last := h.last (i + 4) (by simpa using hi)
      simp only [List.length_cons] at last
      omega
    · exact one ▸ two ▸ h.both
    · exact one ▸ two ▸ h.two
    · exact two ▸ three ▸ h.four
  · rintro ⟨⟨h0, h1, h2, h3⟩, h⟩
    refine ⟨?_, fun c hc => ?_, fun i hi => ?_, ?_, ?_, ?_⟩
    · simp only [List.length_cons]
      omega
    · simp only [List.mem_cons] at hc
      obtain rfl | rfl | rfl | rfl | hc := hc
      · exact Or.inl h0
      · exact Or.inl h1
      · exact Or.inl h2
      · exact Or.inl h3
      · exact h.digits c hc
    · match i with
      | 0 => exact absurd (Option.some.inj hi) (digit_ne_padding h0)
      | 1 => exact absurd (Option.some.inj hi) (digit_ne_padding h1)
      | 2 => exact absurd (Option.some.inj hi) (digit_ne_padding h2)
      | 3 => exact absurd (Option.some.inj hi) (digit_ne_padding h3)
      | i + 4 =>
        have last := h.last i (by simpa using hi)
        simp only [List.length_cons]
        omega
    · rw [one, two]
      exact h.both
    · rw [one, two]
      exact h.two
    · rw [two, three]
      exact h.four

/-- The last quad of a canonical string. -/
theorem canonical_quad {c0 c1 c2 c3 : UInt8} : Canonical [c0, c1, c2, c3] ↔
    (c0 ∈ digits ∧ c1 ∈ digits) ∧ (c2 ∈ digits ∧ c3 ∈ digits ∨
      c2 ∈ digits ∧ c3 = padding ∧ value c2 % 4 = 0 ∨
      c2 = padding ∧ c3 = padding ∧ value c1 % 16 = 0) := by
  constructor
  · intro h
    have front (i : Nat) (c : UInt8) (hi : [c0, c1, c2, c3][i]? = some c) (small : i < 2) :
        c ∈ digits := by
      refine (h.digits c (List.mem_of_getElem? hi)).resolve_right ?_
      rintro rfl
      exact absurd (h.last i hi) (Nat.not_le.2 (Nat.add_lt_add_right small 2))
    refine ⟨⟨front 0 c0 rfl (by decide), front 1 c1 rfl (by decide)⟩, ?_⟩
    obtain h2 | h2 := h.digits c2 (by simp)
    · obtain h3 | h3 := h.digits c3 (by simp)
      · exact Or.inl ⟨h2, h3⟩
      · exact Or.inr (Or.inl ⟨h2, h3, h.two c2 h2 (congrArg some h3) rfl⟩)
    · have h3 : c3 = padding := Option.some.inj (h.both (congrArg some h2))
      exact Or.inr (Or.inr ⟨h2, h3,
        h.four c1 (front 1 c1 rfl (by decide)) (congrArg some h2) rfl⟩)
  · rintro ⟨⟨h0, h1⟩, tail⟩
    have h2 : c2 ∈ digits ∨ c2 = padding := by tauto
    have h3 : c3 ∈ digits ∨ c3 = padding := by tauto
    refine ⟨⟨1, rfl⟩, ?_, fun i hi => ?_, fun pad => ?_, fun c digit pad before => ?_,
      fun c digit pad before => ?_⟩
    · simp only [List.mem_cons, List.not_mem_nil, or_false]
      rintro c (rfl | rfl | rfl | rfl)
      exacts [Or.inl h0, Or.inl h1, h2, h3]
    · match i with
      | 0 => exact absurd (Option.some.inj hi) (digit_ne_padding h0)
      | 1 => exact absurd (Option.some.inj hi) (digit_ne_padding h1)
      | i + 2 =>
        simp only [List.length_cons, List.length_nil]
        omega
    · obtain rfl : c2 = padding := Option.some.inj pad
      obtain ⟨h, -⟩ | ⟨h, -⟩ | ⟨-, rfl, -⟩ := tail
      · exact absurd h padding_not_digit
      · exact absurd h padding_not_digit
      · rfl
    · obtain rfl : c3 = padding := Option.some.inj pad
      obtain rfl : c2 = c := Option.some.inj before
      obtain ⟨-, h⟩ | ⟨-, -, h⟩ | ⟨h, -⟩ := tail
      · exact absurd h padding_not_digit
      · exact h
      · exact absurd h (digit_ne_padding digit)
    · obtain rfl : c2 = padding := Option.some.inj pad
      obtain rfl : c1 = c := Option.some.inj before
      obtain ⟨h, -⟩ | ⟨h, -⟩ | ⟨-, -, h⟩ := tail
      · exact absurd h padding_not_digit
      · exact absurd h padding_not_digit
      · exact h

theorem canonical_rfc4648 (x : List UInt8) : Canonical (rfc4648 x) := by
  induction x using Lib.Base64.encode.induct with
  | case1 => exact ⟨⟨0, rfl⟩, by simp [rfc4648, Lib.Base64.encode], by simp [rfc4648, Lib.Base64.encode],
      by simp [rfc4648, Lib.Base64.encode], by simp [rfc4648, Lib.Base64.encode],
      by simp [rfc4648, Lib.Base64.encode]⟩
  | case2 a =>
    refine canonical_quad.2 ⟨⟨digit_sextet _ _, digit_sextet _ _⟩, Or.inr (Or.inr ⟨rfl, rfl, ?_⟩)⟩
    rw [(value_digit (sextet_lt _ _)).2]
    simp only [sextet, group, Fin.val_one, UInt8.toNat_zero]
    omega
  | case3 a b =>
    refine canonical_quad.2 ⟨⟨digit_sextet _ _, digit_sextet _ _⟩,
      Or.inr (Or.inl ⟨digit_sextet _ _, rfl, ?_⟩)⟩
    rw [(value_digit (sextet_lt _ _)).2]
    simp only [sextet, group, Fin.val_two, UInt8.toNat_zero]
    omega
  | case4 a b c rest ih =>
    rw [rfc4648, Lib.Base64.encode]
    by_cases hrest : rfc4648 rest = []
    · have nothing : Lib.Base64.encode digit padding rest = [] := hrest
      rw [nothing]
      exact canonical_quad.2 ⟨⟨digit_sextet _ _, digit_sextet _ _⟩,
        Or.inl ⟨digit_sextet _ _, digit_sextet _ _⟩⟩
    · exact (canonical_cons hrest ih.quads).2
        ⟨⟨digit_sextet _ _, digit_sextet _ _, digit_sextet _ _, digit_sextet _ _⟩, ih⟩

/-- The digits of the bytes that a quad of digits stands for. -/
theorem group_of_bytes {a b c d : Nat} (ha : a < 64) (hb : b < 64) (hc : c < 64) (hd : d < 64) :
    sextet (group (byte0 a b) (byte1 b c) (byte2 c d)) 0 = a ∧
      sextet (group (byte0 a b) (byte1 b c) (byte2 c d)) 1 = b ∧
      sextet (group (byte0 a b) (byte1 b c) (byte2 c d)) 2 = c ∧
      sextet (group (byte0 a b) (byte1 b c) (byte2 c d)) 3 = d := by
  simp only [sextet, group, byte0_toNat ha hb, byte1_toNat hc, byte2_toNat hd, Fin.val_zero,
    Fin.val_one, Fin.val_two, show ((3 : Fin 4) : Nat) = 3 from rfl]
  omega

theorem group_of_two {a b c : Nat} (ha : a < 64) (hb : b < 64) (hc : c < 64) (h : c % 4 = 0) :
    sextet (group (byte0 a b) (byte1 b c) 0) 0 = a ∧
      sextet (group (byte0 a b) (byte1 b c) 0) 1 = b ∧
      sextet (group (byte0 a b) (byte1 b c) 0) 2 = c := by
  simp only [sextet, group, byte0_toNat ha hb, byte1_toNat hc, UInt8.toNat_zero, Fin.val_zero,
    Fin.val_one, Fin.val_two]
  omega

theorem group_of_one {a b : Nat} (ha : a < 64) (hb : b < 64) (h : b % 16 = 0) :
    sextet (group (byte0 a b) 0 0) 0 = a ∧ sextet (group (byte0 a b) 0 0) 1 = b := by
  simp only [sextet, group, byte0_toNat ha hb, UInt8.toNat_zero, Fin.val_zero, Fin.val_one]
  omega

theorem rfc4648_decoded (s : List UInt8) (h : Canonical s) : rfc4648 (decoded s) = s := by
  match s with
  | [] => rfl
  | [_] | [_, _] | [_, _, _] => exact absurd h.quads (by simp)
  | [c0, c1, c2, c3] =>
    obtain ⟨⟨h0, h1⟩, tail⟩ := canonical_quad.1 h
    have v0 := value_lt h0
    have v1 := value_lt h1
    obtain ⟨h2, h3⟩ | ⟨h2, rfl, unused⟩ | ⟨rfl, rfl, unused⟩ := tail
    · have v2 := value_lt h2
      have v3 := value_lt h3
      obtain ⟨g0, g1, g2, g3⟩ := group_of_bytes v0 v1 v2 v3
      have passes : Passes c0 c1 c2 c3 := ⟨h0, h1, Or.inl h2, Or.inl h3⟩
      simp only [decoded, if_pos passes, quad, if_neg (digit_ne_padding h2),
        if_neg (digit_ne_padding h3), decodeSingle_digit h0, decodeSingle_digit h1,
        decodeSingle_digit h2, decodeSingle_digit h3, List.append_nil, rfc4648,
        Lib.Base64.encode, g0, g1, g2, g3, digit_value h0, digit_value h1, digit_value h2,
        digit_value h3]
    · have v2 := value_lt h2
      obtain ⟨g0, g1, g2⟩ := group_of_two v0 v1 v2 unused
      have passes : Passes c0 c1 c2 padding := ⟨h0, h1, Or.inl h2, Or.inr rfl⟩
      simp only [decoded, if_pos passes, quad, if_neg (digit_ne_padding h2), if_true,
        decodeSingle_digit h0, decodeSingle_digit h1, decodeSingle_digit h2, List.append_nil,
        rfc4648, Lib.Base64.encode, g0, g1, g2, digit_value h0, digit_value h1, digit_value h2]
    · obtain ⟨g0, g1⟩ := group_of_one v0 v1 unused
      have passes : Passes c0 c1 padding padding := ⟨h0, h1, Or.inr rfl, Or.inr rfl⟩
      simp only [decoded, if_pos passes, quad, if_true, decodeSingle_digit h0,
        decodeSingle_digit h1, List.append_nil, rfc4648, Lib.Base64.encode, g0, g1,
        digit_value h0, digit_value h1]
  | c0 :: c1 :: c2 :: c3 :: c4 :: rest =>
    have whole : 4 ∣ (c4 :: rest).length := by
      have quads := h.quads
      simp only [List.length_cons] at quads ⊢
      omega
    obtain ⟨⟨h0, h1, h2, h3⟩, hrest⟩ := (canonical_cons (List.cons_ne_nil c4 rest) whole).1 h
    have back := rfc4648_decoded (c4 :: rest) hrest
    obtain ⟨g0, g1, g2, g3⟩ :=
      group_of_bytes (value_lt h0) (value_lt h1) (value_lt h2) (value_lt h3)
    have passes : Passes c0 c1 c2 c3 := ⟨h0, h1, Or.inl h2, Or.inl h3⟩
    rw [decoded, if_pos passes]
    simp only [quad, if_neg (digit_ne_padding h2),
      if_neg (digit_ne_padding h3), decodeSingle_digit h0, decodeSingle_digit h1,
      decodeSingle_digit h2, decodeSingle_digit h3, List.cons_append, List.nil_append, rfc4648,
      Lib.Base64.encode, g0, g1, g2, g3, digit_value h0, digit_value h1, digit_value h2,
      digit_value h3]
    exact congrArg (fun cs => c0 :: c1 :: c2 :: c3 :: cs) back

/-! ## Nothing behind `out_max` -/

/-- The block still ends where it did, and from `n` on nothing was written. -/
structure Within (n : Nat) (out out' : List UInt8) : Prop where
  length : out'.length = out.length
  behind : out'.drop n = out.drop n

theorem Within.refl (n : Nat) (out : List UInt8) : Within n out out := ⟨rfl, rfl⟩

theorem Within.trans {n : Nat} {out out' out'' : List UInt8} (h : Within n out out')
    (h' : Within n out' out'') : Within n out out'' :=
  ⟨h'.length.trans h.length, h'.behind.trans h.behind⟩

theorem Within.write {n o : Nat} {out b : List UInt8} (h : o + b.length ≤ n)
    (hn : n ≤ out.length) : Within n out (Lib.Blocks.write out o b) := by
  have fits : o + b.length ≤ out.length := Nat.le_trans h hn
  refine ⟨Lib.Blocks.write_length fits, ?_⟩
  apply List.ext_getElem?
  intro i
  rw [List.getElem?_drop, List.getElem?_drop, Lib.Blocks.write_getElem? fits, if_neg (by omega)]

/-- What is written from `k` on, within `n - k`. -/
theorem Within.append {n k : Nat} {out tail : List UInt8} (hk : k ≤ n) (hn : n ≤ out.length)
    (h : Within (n - k) (out.drop k) tail) : Within n out (out.take k ++ tail) := by
  have front : (out.take k).length = k := by
    rw [List.length_take]
    omega
  refine ⟨?_, ?_⟩
  · rw [List.length_append, front, h.length, List.length_drop]
    omega
  · have behind := h.behind
    rw [List.drop_drop, Nat.add_sub_cancel' hk] at behind
    rw [List.drop_append, List.drop_eq_nil_of_le (by omega), front, behind, List.nil_append]

namespace Encoder

variable {e : Encoder} {out inp : List UInt8} {outMax count : Nat}

theorem updateLoop_within (e : Encoder) (out inp : List UInt8) (hc : e.count < 3)
    (hcount : count ≤ outMax) (hout : outMax ≤ out.length)
    (space : outMax + 4 < 2 ^ 64 ∨ count + 4 * ((e.count + inp.length) / 3) < 2 ^ 64) :
    ∃ r, updateLoop outMax e out count inp = .ok r ∧ r.1 ≤ outMax ∧ r.2.2.count ≤ 3 ∧
      Within outMax out r.2.1 := by
  induction inp generalizing e out count with
  | nil => exact ⟨(count, out, e), rfl, hcount, Nat.le_of_lt hc, .refl outMax out⟩
  | cons c cs ih =>
    obtain ⟨e₁, hstash, hstashed, -⟩ := stash_spec hc c
    rw [List.length_cons] at space
    by_cases full : e₁.count = 3
    · have quads : (e.count + (cs.length + 1)) / 3 = (0 + cs.length) / 3 + 1 := by omega
      rw [quads] at space
      by_cases stop : outMax < count + 4
      · refine ⟨(0, out, e₁), ?_, Nat.zero_le outMax, Nat.le_of_eq full, .refl outMax out⟩
        rw [updateLoop, hstash, ok_bind, if_pos full, usize_of_lt (by omega), if_pos stop]
      · have stored : Within outMax out (Lib.Blocks.write out count e₁.quad) :=
          .write (by rw [quad_length]; omega) hout
        have rest : outMax + 4 < 2 ^ 64 ∨ count + 4 + 4 * ((0 + cs.length) / 3) < 2 ^ 64 := by
          omega
        obtain ⟨r, hr, hle, hthree, within⟩ := ih { e₁ with count := 0 } _ (Nat.succ_pos 2)
          (Nat.le_of_not_lt stop) (stored.length.symm ▸ hout) rest
        refine ⟨r, ?_, hle, hthree, stored.trans within⟩
        rw [updateLoop, hstash, ok_bind, if_pos full, usize_of_lt (by omega), if_neg stop,
          store_ok (by rw [quad_length]; omega), ok_bind, hr]
    · have quads : (e.count + (cs.length + 1)) / 3 = (e₁.count + cs.length) / 3 := by omega
      rw [quads] at space
      obtain ⟨r, hr, bounds⟩ := ih e₁ out (by omega) hcount hout space
      refine ⟨r, ?_, bounds⟩
      rw [updateLoop, hstash, ok_bind, if_neg full, hr]

theorem final_within (e : Encoder) (out : List UInt8) (hc : e.count ≤ 3) (hout : outMax ≤ out.length) :
    ∃ r, e.final out outMax = .ok r ∧ r.1 ≤ 4 ∧ Within outMax out r.2.1 := by
  have done (e : Encoder) (chars : List UInt8) (four : chars.length ≤ 4)
      (room : chars.length + 1 ≤ outMax) :
      ∃ r, finish e out chars = .ok r ∧ r.1 ≤ 4 ∧ Within outMax out r.2.1 := by
    have fits : 0 + (chars ++ [0]).length ≤ outMax := by simpa using room
    exact ⟨_, by rw [finish, store_ok (Nat.le_trans fits hout), ok_bind], four, .write fits hout⟩
  have kept (e : Encoder) : ∃ r : Nat × List UInt8 × Encoder,
      (.ok (0, out, e) : Except Fault _) = .ok r ∧ r.1 ≤ 4 ∧ Within outMax out r.2.1 :=
    ⟨_, rfl, Nat.zero_le 4, .refl outMax out⟩
  unfold final
  split_ifs with some full few one few two few none
  · exact kept e
  · exact done _ _ (by simp) (by rw [quad_length]; omega)
  · exact kept e
  · exact done _ _ (by simp) (by simp only [List.length_cons, List.length_nil]; omega)
  · exact kept e
  · exact done _ _ (by simp) (by simp only [List.length_cons, List.length_nil]; omega)
  · omega
  · exact kept e
  · exact done _ [] (by simp) (by simp only [List.length_nil]; omega)

end Encoder

/-- `ct_base64_encode` in bounds. The input and the output lie apart in one address space,
so that no count of characters wraps around. -/
theorem encode_within (inp : List UInt8) {out : List UInt8} {outMax : Nat}
    (hout : outMax ≤ out.length) (hmax : outMax < 2 ^ 64) (space : inp.length + outMax ≤ 2 ^ 64) :
    ∃ n out', encode (some inp) inp.length out outMax = .ok (n, out') ∧ Within outMax out out' := by
  have loaded : (some inp).mapM (fun bytes => load bytes 0 inp.length) = .ok (some inp) := by
    show (some <$> load inp 0 inp.length : Except Fault _) = _
    rw [load_ok (by omega), Lib.Blocks.read, List.drop_zero, List.take_length]
    rfl
  by_cases hzero : outMax = 0
  · subst hzero
    refine ⟨0, out, ?_, .refl 0 out⟩
    have wrapped : 0 < usize (usize
        (usize (inp.length / 3 + if inp.length % 3 ≠ 0 then 1 else 0) * 4) + 1) := by
      unfold usize
      omega
    rw [encode, emptied, if_neg (by decide), ok_bind]
    simp only [if_pos wrapped]
  · have cleared : Within outMax out (Lib.Blocks.write out 0 [0]) :=
      .write (by simp only [List.length_singleton]; omega) hout
    rw [encode, emptied_ok (by omega) hout, ok_bind]
    dsimp only
    generalize usize (usize
      (usize (inp.length / 3 + if inp.length % 3 ≠ 0 then 1 else 0) * 4) + 1) = size
    by_cases short : outMax < size
    · rw [if_pos short]
      exact ⟨_, _, rfl, cleared⟩
    · rw [if_neg short, loaded, ok_bind, usizeSub_of_le (by omega) hmax]
      obtain ⟨⟨n, out₁, e⟩, hr, hn, hthree, within⟩ := Encoder.updateLoop_within
        Encoder.init (Lib.Blocks.write out 0 [0]) inp (Nat.succ_pos 2) (Nat.zero_le (outMax - 1))
        (by rw [cleared.length]; omega)
        (show outMax - 1 + 4 < 2 ^ 64 ∨ 0 + 4 * ((0 + inp.length) / 3) < 2 ^ 64 by omega)
      have hn : n ≤ outMax - 1 := hn
      have kept : Within outMax (Lib.Blocks.write out 0 [0]) out₁ := by
        refine ⟨within.length, ?_⟩
        have behind := congrArg (List.drop 1) within.behind
        rwa [List.drop_drop, List.drop_drop, Nat.sub_add_cancel (by omega)] at behind
      have hlength := kept.length.trans cleared.length
      obtain ⟨⟨k, tail, e'⟩, hfinal, -, ended⟩ := Encoder.final_within e (out₁.drop n)
        hthree (show outMax - n ≤ (out₁.drop n).length by rw [List.length_drop]; omega)
      refine ⟨usize (n + k), out₁.take n ++ tail, ?_,
        cleared.trans (kept.trans (.append (by omega) (by omega) ended))⟩
      rw [Encoder.update_eq (Nat.succ_pos 2), hr, ok_bind]
      dsimp only
      rw [usizeSub_of_le (by omega) hmax, hfinal, ok_bind]

/-- `ct_base64_decode` in bounds. -/
theorem decode_within (inp : List UInt8) {out : List UInt8} {outMax : Nat}
    (hout : outMax ≤ out.length) :
    ∃ n out', decode (some inp) inp.length out outMax = .ok (n, out') ∧ Within outMax out out' := by
  by_cases room : inp.length / 4 * 3 + 1 ≤ outMax
  · have cleared : Within outMax out (Lib.Blocks.write out 0 [0]) :=
      .write (by simp only [List.length_singleton]; omega) hout
    have most := written_length_le inp
    exact ⟨_, _, decode_spec inp room hout,
      cleared.trans (.write (by omega) (cleared.length.symm ▸ hout))⟩
  · by_cases hzero : outMax = 0
    · subst hzero
      refine ⟨0, out, ?_, .refl 0 out⟩
      rw [decode, emptied, if_neg (by decide), ok_bind, if_pos (by omega)]
    · have fits : 0 + [(0 : UInt8)].length ≤ outMax := by
        rw [List.length_singleton]
        omega
      refine ⟨0, _, ?_, .write fits hout⟩
      rw [decode, emptied_ok (by omega) hout, ok_bind, if_pos (by omega)]

/-- **Encoding and decoding.** With buffers of the sizes that the two functions check,
decoding what `ct_base64_encode` makes of a byte string gives the byte string, and its
length. For every string, in the alphabet or not, and every size of the output, neither
function writes from that size on. -/
theorem round_trip :
    (∀ (x out back : List UInt8) (outMax backMax : Nat), x.length < 2 ^ 61 →
      encodeLength x.length + 1 ≤ outMax → outMax ≤ out.length → outMax < 2 ^ 64 →
      encodeLength x.length / 4 * 3 + 1 ≤ backMax → backMax ≤ back.length →
      ∃ n out' back', encode (some x) x.length out outMax = .ok (n, out') ∧
        decode (some (out'.take n)) n back backMax = .ok (x.length, back') ∧
        back'.take x.length = x) ∧
    (∀ (inp out : List UInt8) (outMax : Nat), outMax ≤ out.length → outMax < 2 ^ 64 →
      inp.length + outMax ≤ 2 ^ 64 →
      ∃ n out', encode (some inp) inp.length out outMax = .ok (n, out') ∧ Within outMax out out') ∧
    (∀ (inp out : List UInt8) (outMax : Nat), outMax ≤ out.length →
      ∃ n out', decode (some inp) inp.length out outMax = .ok (n, out') ∧
        Within outMax out out') := by
  refine ⟨?_, fun inp out outMax => encode_within inp, fun inp out outMax => decode_within inp⟩
  intro x out back outMax backMax _ room hout hmax roomBack hback
  obtain ⟨out', hencode, coded⟩ := encode_spec x room hout hmax
  obtain ⟨accepted, whole⟩ := decoded_rfc4648 x
  have bound := rfc4648_length x
  have decodes := decode_spec (rfc4648 x) (bound.symm ▸ roomBack) hback
  rw [if_pos accepted, whole] at decodes
  refine ⟨_, out', _, hencode, by rw [coded, decodes], ?_⟩
  rw [Lib.Blocks.write_start, written, whole, if_pos accepted, List.append_assoc, List.take_left]

/-- "hello", and a string that is not base 64 into three characters. -/
theorem round_trip_hello :
    (∃ n out' back', encode (some [104, 101, 108, 108, 111]) 5 (List.replicate 9 0) 9 = .ok (n, out') ∧
      decode (some (out'.take n)) n (List.replicate 7 0) 7 = .ok (5, back') ∧
      back'.take 5 = [104, 101, 108, 108, 111]) ∧
    (∃ n out', encode (some [61, 255]) 2 [1, 2, 3] 3 = .ok (n, out') ∧ Within 3 [1, 2, 3] out') ∧
    (∃ n out', decode (some [61, 255]) 2 [1, 2, 3] 3 = .ok (n, out') ∧ Within 3 [1, 2, 3] out') :=
  ⟨round_trip.1 [104, 101, 108, 108, 111] (List.replicate 9 0) (List.replicate 7 0) 9 7 (by decide)
      (by decide) (by decide) (by decide) (by decide) (by decide),
    round_trip.2.1 [61, 255] [1, 2, 3] 3 (by decide) (by decide) (by decide),
    round_trip.2.2 [61, 255] [1, 2, 3] 3 (by decide)⟩

/-! ## What is refused -/

/-- Encoding again, into a buffer of `CT_BASE64_ENCODE_LENGTH` characters and one more. -/
def reencoded (bytes : List UInt8) : Except Fault (List UInt8) := do
  let size := encodeLength bytes.length + 1
  let (n, out) ← encode (some bytes) bytes.length (List.replicate size 0) size
  .ok (out.take n)

theorem reencoded_eq (bytes : List UInt8) (h : encodeLength bytes.length + 1 < 2 ^ 64) :
    reencoded bytes = .ok (rfc4648 bytes) := by
  have fresh : encodeLength bytes.length + 1 ≤
      (List.replicate (encodeLength bytes.length + 1) (0 : UInt8)).length := by simp
  obtain ⟨out, hencode, coded⟩ := encode_spec bytes (Nat.le_refl _) fresh h
  rw [reencoded, hencode, ok_bind]
  exact congrArg Except.ok coded

/-- A string that the decoder takes and that is not canonical: every quad passes its
check, and the string breaks off in a quad, has '=' in front of its last two characters
or in front of a digit, or has bits set that its padding leaves unused. -/
def Lenient (s : List UInt8) : Prop := 4 ≤ s.length ∧ Accepted s ∧ Lapse s

theorem decoded_ne_nil {s : List UInt8} (h : 4 ≤ s.length) (accepted : Accepted s) :
    decoded s ≠ [] := by
  match s with
  | c0 :: c1 :: c2 :: c3 :: rest => simp [decoded, accepted.1, quad]
  | [] | [_] | [_, _] | [_, _, _] => exact absurd h (by simp)

theorem decoded_of_short {s : List UInt8} (h : s.length < 4) : decoded s = [] := by
  match s with
  | c0 :: c1 :: c2 :: c3 :: rest =>
    simp only [List.length_cons] at h
    omega
  | [] | [_] | [_, _] | [_, _, _] => rfl

/-- **Strictness.** With enough room, `ct_base64_decode` returns a length for canonical
strings and no others, and gives back only what encodes to the string again, exactly if
the string is none of those that pass the check of each quad by itself and are not
canonical. -/
theorem strict_iff (s : List UInt8) (hs : s ≠ []) (hlen : s.length < 2 ^ 64) {out : List UInt8}
    {outMax : Nat} (room : s.length / 4 * 3 + 1 ≤ outMax) (hout : outMax ≤ out.length) :
    ∃ n out', decode (some s) s.length out outMax = .ok (n, out') ∧
      ((n ≠ 0 ↔ Canonical s) ↔ ¬ Lenient s) ∧
      ((n ≠ 0 → reencoded (out'.take n) = .ok s) ↔ ¬ Lenient s) := by
  have decodes := decode_spec s room hout
  by_cases accepted : Accepted s
  · have most := decoded_length_le s
    have coded : reencoded (decoded s) = .ok (rfc4648 (decoded s)) := by
      apply reencoded_eq
      unfold encodeLength
      split <;> omega
    have bytes : (Lib.Blocks.write (Lib.Blocks.write out 0 [0]) 0 (written s)).take
        (decoded s).length = decoded s := by
      rw [Lib.Blocks.write_start, written, if_pos accepted, List.append_assoc, List.take_left]
    rw [if_pos accepted] at decodes
    refine ⟨_, _, decodes, ?_⟩
    rw [bytes, coded, Except.ok.injEq]
    by_cases four : 4 ≤ s.length
    · have returned : (decoded s).length ≠ 0 := by
        rw [Ne, List.length_eq_zero_iff]
        exact decoded_ne_nil four accepted
      have canonical : Canonical s ↔ ¬ Lenient s := by
        rw [canonical_iff hs, Lenient]
        tauto
      have again : rfc4648 (decoded s) = s ↔ Canonical s :=
        ⟨fun h => h ▸ canonical_rfc4648 _, rfc4648_decoded s⟩
      simp only [returned, ne_eq, not_false_eq_true, true_iff, true_imp_iff, again, canonical,
        and_self]
    · have nothing : (decoded s).length = 0 := by rw [decoded_of_short (by omega), List.length_nil]
      have malformed : ¬ Canonical s := fun h => four ((canonical_iff hs).1 h).1
      have strict : ¬ Lenient s := fun h => four h.1
      simp only [nothing, ne_eq, not_true, malformed, strict, not_false_eq_true,
        false_imp_iff, and_self]
  · have malformed : ¬ Canonical s := fun h => accepted ((canonical_iff hs).1 h).2.1
    have strict : ¬ Lenient s := fun h => accepted h.2.1
    rw [if_neg accepted] at decodes
    refine ⟨_, _, decodes, ?_⟩
    simp only [ne_eq, not_true, malformed, strict, not_false_eq_true, false_imp_iff,
      and_self]

/-- "QQ==". -/
theorem strict_iff_one : ∃ n out', decode (some [81, 81, 61, 61]) 4 [0, 0, 0, 0] 4 = .ok (n, out') ∧
    ((n ≠ 0 ↔ Canonical [81, 81, 61, 61]) ↔ ¬ Lenient [81, 81, 61, 61]) ∧
    ((n ≠ 0 → reencoded (out'.take n) = .ok [81, 81, 61, 61]) ↔ ¬ Lenient [81, 81, 61, 61]) :=
  strict_iff [81, 81, 61, 61] (by decide) (by decide) (by decide) (by decide)

/-- "QQ=A" is taken for the byte that "QQ==" encodes. -/
theorem lenient_quad : decode (some [81, 81, 61, 65]) 4 [0, 0, 0, 0] 4 = .ok (1, [65, 0, 0, 0]) ∧
    ¬ Canonical [81, 81, 61, 65] ∧ reencoded [65] = .ok [81, 81, 61, 61] := by
  refine ⟨by decide, fun h => ?_, by decide⟩
  have last := h.last 2 rfl
  have both := h.both rfl
  revert both
  decide

/-! ## What a failure leaves -/

/-- The first quad passes and another one does not, and the first two characters are not
'A' and one of 'A' to 'P', which stand for the byte zero. -/
def Late : List UInt8 → Prop
  | c0 :: c1 :: c2 :: c3 :: rest =>
    Passes c0 c1 c2 c3 ∧ ¬ Accepted rest ∧ ¬ (value c0 = 0 ∧ value c1 < 16)
  | _ => False

theorem late_refused {s : List UInt8} (h : Late s) : ¬ Accepted s := by
  match s, h with
  | c0 :: c1 :: c2 :: c3 :: rest, h => exact fun accepted => h.2.1 accepted.2

theorem byte0_zero {a b : Nat} (ha : a < 64) (hb : b < 64) : byte0 a b = 0 ↔ a = 0 ∧ b < 16 := by
  rw [← UInt8.toNat_inj, byte0_toNat ha hb, UInt8.toNat_zero]
  omega

theorem written_first (s : List UInt8) (h : ¬ Accepted s ∨ decoded s = []) :
    ((written s)[0]?.getD 0 = 0) ↔ ¬ Late s := by
  match s with
  | c0 :: c1 :: c2 :: c3 :: rest =>
    by_cases passes : Passes c0 c1 c2 c3
    · have late : ¬ Accepted rest := by
        obtain h | h := h
        · exact fun hrest => h ⟨passes, hrest⟩
        · simp [decoded, passes, quad] at h
      have first : (written (c0 :: c1 :: c2 :: c3 :: rest))[0]?.getD 0 =
          byte0 (value c0) (value c1) := by
        simp [written, decoded, passes, quad, decodeSingle_digit passes.1,
          decodeSingle_digit passes.2.1]
      rw [first, byte0_zero (value_lt passes.1) (value_lt passes.2.1)]
      simp only [Late, passes, late, not_false_eq_true, true_and, not_not]
    · have none : written (c0 :: c1 :: c2 :: c3 :: rest) = [] := by
        simp [written, decoded, Accepted, passes]
      rw [none]
      simp [Late, passes]
  | [] | [_] | [_, _] | [_, _, _] => exact iff_of_true rfl not_false

/-- **Failures.** A failing `ct_base64_decode` leaves the empty string, exactly if it is
not for a quad behind the first, over which the first byte has been stored. -/
theorem failure_empty_iff (s : List UInt8) {out : List UInt8} {outMax : Nat} (hmax : 0 < outMax)
    (hout : outMax ≤ out.length) :
    ∃ n out', decode (some s) s.length out outMax = .ok (n, out') ∧
      ((n = 0 → out'[0]? = some 0) ↔ ¬ (s.length / 4 * 3 + 1 ≤ outMax ∧ Late s)) := by
  have head (b : List UInt8) :
      (Lib.Blocks.write (Lib.Blocks.write out 0 [0]) 0 b)[0]? = some (b[0]?.getD 0) := by
    cases b with
    | nil =>
      rw [Lib.Blocks.write_nil, Lib.Blocks.write_start]
      rfl
    | cons c cs =>
      rw [Lib.Blocks.write_start]
      rfl
  by_cases room : s.length / 4 * 3 + 1 ≤ outMax
  · refine ⟨_, _, decode_spec s room hout, ?_⟩
    rw [head (written s), Option.some.injEq]
    simp only [room, true_and]
    by_cases accepted : Accepted s
    · have late : ¬ Late s := fun h => late_refused h accepted
      rw [if_pos accepted]
      exact iff_of_true (fun h => (written_first s (Or.inr (List.length_eq_zero_iff.1 h))).2 late) late
    · rw [if_neg accepted]
      simpa using written_first s (Or.inl accepted)
  · refine ⟨0, Lib.Blocks.write out 0 [0], ?_, ?_⟩
    · rw [decode, emptied_ok hmax hout, ok_bind, if_pos (by omega)]
    · rw [Lib.Blocks.write_start]
      exact iff_of_true (fun _ => rfl) fun h => room h.1

/-- The first quad fails. -/
theorem failure_empty_iff_first : ∃ n out', decode (some [33, 33, 33, 33]) 4 [1, 2, 3, 4] 4 = .ok (n, out') ∧
    ((n = 0 → out'[0]? = some 0) ↔ ¬ (4 / 4 * 3 + 1 ≤ 4 ∧ Late [33, 33, 33, 33])) :=
  failure_empty_iff [33, 33, 33, 33] (by decide) (by decide)

/-- "QUJD!!!!" leaves "ABC". -/
theorem failure_after_store :
    decode (some [81, 85, 74, 68, 33, 33, 33, 33]) 8 (List.replicate 7 0) 7 =
      .ok (0, [65, 66, 67, 0, 0, 0, 0]) := by
  decide

end Coter.Base64
