import Coter.Encoding.Hex

/-!
# Hexadecimal strings and back

* `encodeLoop_spec`, `encode_spec`: the digits of the bytes that there is room for;
* `decodeLoop_spec`, `decodeLoop_fails`: the bytes of the digits, as many as there is room
  for, or a failure at the first character that is no digit;
* `hex_iff`: the two functions agree as long as the number of bytes is an `int`;
* `terminated_iff`: when the string is terminated inside its buffer.
-/

namespace Coter.Hex

/-- The two digits of a byte, in lower case. -/
def pair (b : UInt8) : List UInt8 := [digit (b.toNat / 16), digit (b.toNat % 16)]

/-- The digits of bytes. -/
def chars (bytes : List UInt8) : List UInt8 := bytes.flatMap pair

/-- The digits, in lower and upper case. -/
def digits : List UInt8 :=
  [48, 49, 50, 51, 52, 53, 54, 55, 56, 57, 97, 98, 99, 100, 101, 102, 65, 66, 67, 68, 69, 70]

/-- A letter from 'A' to 'F' in lower case. -/
def lower (c : UInt8) : UInt8 := if 65 ≤ c ∧ c ≤ 70 then c + 32 else c

/-- The byte of two digits. -/
def unpair (c0 c1 : UInt8) : UInt8 := UInt8.ofNat ((entry c0).toNat <<< 4 ||| (entry c1).toNat)

/-- The bytes of digits. -/
def bytes : List UInt8 → List UInt8
  | c0 :: c1 :: rest => unpair c0 c1 :: bytes rest
  | _ => []

/-! ## The tables -/

theorem digit_table {n : Nat} (h : n < 16) : digit n ∈ digits ∧ entry (digit n) = n ∧
    lower (digit n) = digit n ∧ digit n ≠ 0 := by
  have all : ∀ n : Fin 16, digit n ∈ digits ∧ entry (digit n) = (n : Nat) ∧
      lower (digit n) = digit n ∧ digit n ≠ 0 := by decide +kernel
  exact all ⟨n, h⟩

theorem entry_other (c : UInt8) : entry c = -1 ↔ c ∉ digits := by
  have all : ∀ n : Fin 256, entry (UInt8.ofNat n) = -1 ↔ UInt8.ofNat n ∉ digits := by
    decide +kernel
  have this := all ⟨c.toNat, c.toNat_lt⟩
  rwa [UInt8.ofNat_toNat] at this

theorem entry_digit {c : UInt8} (h : c ∈ digits) :
    (entry c).toNat < 16 ∧ digit (entry c).toNat = lower c := by
  have all : ∀ c ∈ digits, (entry c).toNat < 16 ∧ digit (entry c).toNat = lower c := by
    decide +kernel
  exact all c h

theorem unpair_toNat {c0 c1 : UInt8} (h0 : c0 ∈ digits) (h1 : c1 ∈ digits) :
    (unpair c0 c1).toNat = (entry c0).toNat * 16 + (entry c1).toNat := by
  have small := (entry_digit h0).1
  have low : (entry c1).toNat < 2 ^ 4 := (entry_digit h1).1
  rw [unpair, UInt8.toNat_ofNat', ← Nat.shiftLeft_add_eq_or_of_lt low, Nat.shiftLeft_eq]
  omega

/-- The digits of the byte of two digits. -/
theorem pair_unpair {c0 c1 : UInt8} (h0 : c0 ∈ digits) (h1 : c1 ∈ digits) :
    pair (unpair c0 c1) = [lower c0, lower c1] := by
  have small := (entry_digit h1).1
  have high : (unpair c0 c1).toNat / 16 = (entry c0).toNat := by
    rw [unpair_toNat h0 h1]
    omega
  have low : (unpair c0 c1).toNat % 16 = (entry c1).toNat := by
    rw [unpair_toNat h0 h1]
    omega
  rw [pair, high, low, (entry_digit h0).2, (entry_digit h1).2]

/-- The byte of its two digits. -/
theorem unpair_pair (b : UInt8) : unpair (digit (b.toNat / 16)) (digit (b.toNat % 16)) = b := by
  have hb := b.toNat_lt
  obtain ⟨high, entryHigh, -⟩ := digit_table (show b.toNat / 16 < 16 by omega)
  obtain ⟨low, entryLow, -⟩ := digit_table (show b.toNat % 16 < 16 by omega)
  rw [← UInt8.toNat_inj, unpair_toNat high low, entryHigh, entryLow, Int.toNat_natCast,
    Int.toNat_natCast]
  omega

/-! ## Strings of digits -/

theorem chars_length (bs : List UInt8) : (chars bs).length = 2 * bs.length := by
  induction bs with
  | nil => rfl
  | cons b bs ih =>
    rw [chars, List.flatMap_cons, List.length_append, ← chars, ih, List.length_cons]
    simp only [pair, List.length_cons, List.length_nil]
    omega

theorem chars_digits {bs : List UInt8} {c : UInt8} (h : c ∈ chars bs) :
    c ∈ digits ∧ lower c = c ∧ c ≠ 0 := by
  obtain ⟨b, -, hc⟩ := List.mem_flatMap.1 h
  have hb := b.toNat_lt
  obtain ⟨high, -, lowerHigh, nonzeroHigh⟩ := digit_table (show b.toNat / 16 < 16 by omega)
  obtain ⟨low, -, lowerLow, nonzeroLow⟩ := digit_table (show b.toNat % 16 < 16 by omega)
  simp only [pair, List.mem_cons, List.not_mem_nil, or_false] at hc
  obtain rfl | rfl := hc
  · exact ⟨high, lowerHigh, nonzeroHigh⟩
  · exact ⟨low, lowerLow, nonzeroLow⟩

theorem bytes_chars (bs : List UInt8) : bytes (chars bs) = bs := by
  induction bs with
  | nil => rfl
  | cons b bs ih =>
    have back : bytes (bs.flatMap pair) = bs := ih
    simp only [chars, List.flatMap_cons, pair, List.cons_append, List.nil_append, bytes,
      unpair_pair, back]

theorem bytes_length (s : List UInt8) : (bytes s).length = s.length / 2 := by
  induction s using bytes.induct with
  | case1 c0 c1 rest ih =>
    simp only [bytes, List.length_cons, ih]
    omega
  | case2 s few =>
    match s, few with
    | [], _ | [_], _ => simp [bytes]
    | c0 :: c1 :: rest, few => exact absurd rfl (few c0 c1 rest)

theorem chars_bytes {s : List UInt8} (even : s.length % 2 = 0) (h : ∀ c ∈ s, c ∈ digits) :
    chars (bytes s) = s.map lower := by
  induction s using bytes.induct with
  | case1 c0 c1 rest ih =>
    have rest_even : rest.length % 2 = 0 := by
      simp only [List.length_cons] at even
      omega
    have more := ih rest_even fun c hc => h c (by simp [hc])
    rw [bytes, chars, List.flatMap_cons, ← chars, more,
      pair_unpair (h c0 (by simp)) (h c1 (by simp))]
    rfl
  | case2 s few =>
    match s, few with
    | [], _ => rfl
    | [_], _ => exact absurd even (by simp)
    | c0 :: c1 :: rest, few => exact absurd rfl (few c0 c1 rest)

/-! ## The encoder -/

variable {out : List UInt8} {max : Nat}

theorem encodeLoop_spec (src : List UInt8) {i : Nat} (hi : i ≤ max / 2) (hmax : max < 2 ^ 64)
    (hout : max ≤ out.length) :
    encodeLoop max src i out = .ok (i + min src.length (max / 2 - i),
      Lib.Blocks.write out (2 * i) (chars (src.take (max / 2 - i)))) := by
  induction src generalizing i out with
  | nil => simp [encodeLoop, chars, Lib.Blocks.write_nil]
  | cons c cs ih =>
    have low : usize (i * 2) = 2 * i := by
      rw [usize_of_lt (by omega), Nat.mul_comm]
    have high : usize (2 * i + 1) = 2 * i + 1 := usize_of_lt (by omega)
    have hc := c.toNat_lt
    have first : c.toNat >>> 4 &&& 0x0F = c.toNat / 16 := by
      rw [Nat.and_two_pow_sub_one_eq_mod _ 4, Nat.shiftRight_eq_div_pow]
      omega
    have second : c.toNat &&& 0x0F = c.toNat % 16 := Nat.and_two_pow_sub_one_eq_mod _ 4
    rw [encodeLoop, low, high, first, second]
    by_cases room : 2 * i + 1 < max
    · have left : max / 2 - i = max / 2 - (i + 1) + 1 := by omega
      have one : 2 * i + [digit (c.toNat / 16)].length ≤ out.length := by
        rw [List.length_singleton]
        omega
      have two : 2 * i + ([digit (c.toNat / 16)].length + [digit (c.toNat % 16)].length) ≤
          out.length := by
        simp only [List.length_singleton]
        omega
      have next : store (Lib.Blocks.write out (2 * i) [digit (c.toNat / 16)]) (2 * i + 1)
          [digit (c.toNat % 16)] = .ok (Lib.Blocks.write out (2 * i) (pair c)) :=
        store_behind two
      have fits : 2 * i + (pair c).length ≤ out.length := two
      rw [if_pos room, store_ok one, ok_bind, next, ok_bind,
        ih (by omega) (by rw [Lib.Blocks.write_length fits]; exact hout), left]
      have behind : 2 * (i + 1) = 2 * i + (pair c).length := rfl
      have bound : 2 * i + ((pair c).length + (chars (cs.take (max / 2 - (i + 1)))).length) ≤
          out.length := by
        have pairs : (pair c).length = 2 := rfl
        rw [chars_length, List.length_take, pairs]
        omega
      rw [behind, Lib.Blocks.write_write bound, List.take_succ_cons, List.length_cons]
      congr 2
      omega
    · have none : max / 2 - i = 0 := by omega
      rw [if_neg room, none]
      simp [chars, Lib.Blocks.write_nil]

/-- `ct_hex_encode`: digits of as many bytes as there is room for, and a terminator if
there is room for it. -/
theorem encode_spec (src : List UInt8) (hpos : 0 < max) (hmax : max < 2 ^ 64)
    (hout : max ≤ out.length) :
    encode (some src) src.length (some out) max = .ok (i32 (2 * min src.length (max / 2) : Nat),
      some (Lib.Blocks.write out 0 (chars (src.take (max / 2)) ++
        if 2 * min src.length (max / 2) < max then [0] else []))) := by
  have whole : load src 0 src.length = .ok src := by
    rw [load_ok (by omega), Lib.Blocks.read, List.drop_zero, List.take_length]
  have digits := chars_length (src.take (max / 2))
  rw [List.length_take, Nat.min_comm] at digits
  have count : usize (min src.length (max / 2) * 2) = 2 * min src.length (max / 2) := by
    rw [usize_of_lt (by omega), Nat.mul_comm]
  simp only [encode, if_neg (Nat.ne_of_gt hpos), whole, ok_bind,
    encodeLoop_spec src (Nat.zero_le _) hmax hout, Nat.zero_add, Nat.sub_zero, Nat.mul_zero, count]
  by_cases room : 2 * min src.length (max / 2) < max
  · have bound : 0 + ((chars (src.take (max / 2))).length + [(0 : UInt8)].length) ≤ out.length := by
      rw [digits, List.length_singleton]
      omega
    have terminated : store (Lib.Blocks.write out 0 (chars (src.take (max / 2))))
        (2 * min src.length (max / 2)) [0] =
        .ok (Lib.Blocks.write out 0 (chars (src.take (max / 2)) ++ [0])) := by
      rw [← store_behind bound, digits, Nat.zero_add]
    simp only [if_pos room, terminated, ok_bind]
  · simp only [if_neg room, List.append_nil]

/-! ## The decoder -/

theorem decodeLoop_spec {s : List UInt8} {j : Nat} (hj : j ≤ max) (hout : max ≤ out.length)
    (h : ∀ c ∈ s.take (2 * (max - j)), c ∈ digits) :
    decodeLoop max s (2 * j) out = .ok (i32 (j + (s.take (2 * (max - j))).length / 2 : Nat),
      Lib.Blocks.write out j (bytes (s.take (2 * (max - j))))) := by
  induction s using bytes.induct generalizing j out with
  | case1 c0 c1 rest ih =>
    have half : 2 * j / 2 = j := by omega
    rw [decodeLoop, half]
    by_cases room : j < max
    · have left : 2 * (max - j) = 2 * (max - (j + 1)) + 2 := by omega
      rw [left, List.take_succ_cons, List.take_succ_cons] at h ⊢
      have h0 : c0 ∈ digits := h c0 (by simp)
      have h1 : c1 ∈ digits := h c1 (by simp)
      have valid : ¬ (entry c0 = -1 ∨ entry c1 = -1) := by
        rw [entry_other, entry_other]
        tauto
      have fits : j + [unpair c0 c1].length ≤ out.length := by
        rw [List.length_singleton]
        omega
      have rest_le : (rest.take (2 * (max - (j + 1)))).length ≤ 2 * (max - (j + 1)) :=
        List.length_take_le ..
      have stored : store out j [UInt8.ofNat ((entry c0).toNat <<< 4 ||| (entry c1).toNat)] =
          .ok (Lib.Blocks.write out j [unpair c0 c1]) := store_ok fits
      have next : 2 * j + 2 = 2 * (j + 1) := by omega
      have bound : j + ([unpair c0 c1].length + (bytes (rest.take (2 * (max - (j + 1))))).length) ≤
          out.length := by
        rw [bytes_length, List.length_singleton]
        omega
      have joined : Lib.Blocks.write (Lib.Blocks.write out j [unpair c0 c1]) (j + 1)
          (bytes (rest.take (2 * (max - (j + 1))))) =
          Lib.Blocks.write out j (unpair c0 c1 :: bytes (rest.take (2 * (max - (j + 1))))) :=
        Lib.Blocks.write_write bound
      have more : j + 1 ≤ max := room
      simp only [if_pos room, if_neg valid, stored, ok_bind, next]
      rw [ih more (by rw [Lib.Blocks.write_length fits]; exact hout) fun c hc => h c (by simp [hc]),
        joined, bytes, List.length_cons, List.length_cons]
      congr 3
      omega
    · have none : max - j = 0 := by omega
      rw [if_neg room, none]
      simp [bytes, Lib.Blocks.write_nil]
  | case2 s few =>
    have half : 2 * j / 2 = j := by omega
    match s, few with
    | [], _ => simp [decodeLoop, bytes, half, Lib.Blocks.write_nil]
    | [c], _ =>
      have one : ([c].take (2 * (max - j))).length / 2 = 0 := by
        rw [List.length_take, List.length_singleton]
        omega
      have nothing : bytes ([c].take (2 * (max - j))) = [] := by
        rw [← List.length_eq_zero_iff, bytes_length, one]
      rw [one, nothing, Lib.Blocks.write_nil, decodeLoop, half, Nat.add_zero]
      simp
    | c0 :: c1 :: rest, few => exact absurd rfl (few c0 c1 rest)

theorem decodeLoop_fails {s : List UInt8} {j : Nat} (even : s.length % 2 = 0)
    (hj : j ≤ max) (hout : max ≤ out.length) (h : ¬ ∀ c ∈ s.take (2 * (max - j)), c ∈ digits) :
    ∃ out', decodeLoop max s (2 * j) out = .ok (-1, out') := by
  induction s using bytes.induct generalizing j out with
  | case1 c0 c1 rest ih =>
    have half : 2 * j / 2 = j := by omega
    rw [decodeLoop, half]
    by_cases room : j < max
    · have left : 2 * (max - j) = 2 * (max - (j + 1)) + 2 := by omega
      rw [left, List.take_succ_cons, List.take_succ_cons] at h
      by_cases invalid : entry c0 = -1 ∨ entry c1 = -1
      · exact ⟨out, by simp only [if_pos room, if_pos invalid]⟩
      · have valid : c0 ∈ digits ∧ c1 ∈ digits := by
          rwa [entry_other, entry_other, not_or, not_not, not_not] at invalid
        have fits : j + [unpair c0 c1].length ≤ out.length := by
          rw [List.length_singleton]
          omega
        have stored : store out j [UInt8.ofNat ((entry c0).toNat <<< 4 ||| (entry c1).toNat)] =
            .ok (Lib.Blocks.write out j [unpair c0 c1]) := store_ok fits
        have next : 2 * j + 2 = 2 * (j + 1) := by omega
        have later : ¬ ∀ c ∈ rest.take (2 * (max - (j + 1))), c ∈ digits := by
          intro hrest
          apply h
          simp only [List.mem_cons]
          rintro c (rfl | rfl | hc)
          exacts [valid.1, valid.2, hrest c hc]
        have rest_even : rest.length % 2 = 0 := by
          simp only [List.length_cons] at even
          omega
        have more : j + 1 ≤ max := room
        obtain ⟨out', hr⟩ := ih rest_even more
          (by rw [Lib.Blocks.write_length fits]; exact hout) later
        exact ⟨out', by simp only [if_pos room, if_neg invalid, stored, ok_bind, next, hr]⟩
    · have none : max - j = 0 := by omega
      rw [none] at h
      exact absurd (fun c hc => absurd hc (by simp)) h
  | case2 s few =>
    match s, few with
    | [], _ => exact absurd (fun c hc => absurd hc (by simp)) h
    | [c], _ => exact absurd even (by simp)
    | c0 :: c1 :: rest, few => exact absurd rfl (few c0 c1 rest)

/-- A string that `ct_hex_decode` is to refuse: of odd length, or with a character that
is no digit among those it looks at. -/
def Malformed (s : List UInt8) (max : Nat) : Prop :=
  s.length % 2 = 1 ∨ ∃ c ∈ s.take (2 * max), c ∉ digits

/-- `ct_hex_decode` of the digits of a string of explicit length. -/
theorem decode_spec {s : List UInt8} (hs : s ≠ []) (hpos : 0 < max) (hout : max ≤ out.length) :
    (Malformed s max → ∃ out', decode (some s) s.length (some out) max = .ok (-1, some out')) ∧
    (¬ Malformed s max → decode (some s) s.length (some out) max =
      .ok (i32 (min (s.length / 2) max : Nat),
        some (Lib.Blocks.write out 0 (bytes (s.take (2 * max)))))) := by
  have whole : load s 0 s.length = .ok s := by
    rw [load_ok (by omega), Lib.Blocks.read, List.drop_zero, List.take_length]
  have explicit : s.length ≠ 0 := fun h => hs (List.length_eq_zero_iff.1 h)
  have front : decode (some s) s.length (some out) max =
      if s.length % 2 ≠ 0 then .ok (-1, some out)
      else decodeLoop max s (2 * 0) out >>= fun r => .ok (r.1, some r.2) := by
    simp only [decode, if_neg (Nat.ne_of_gt hpos), if_neg explicit, ok_bind, whole]
  rw [front]
  by_cases odd : s.length % 2 = 0
  · rw [if_neg (not_not.2 odd)]
    by_cases valid : ∀ c ∈ s.take (2 * (max - 0)), c ∈ digits
    · refine ⟨?_, fun _ => ?_⟩
      · rintro (h | ⟨c, hc, h⟩)
        · omega
        · exact absurd (valid c hc) h
      · have count : (s.take (2 * max)).length / 2 = min (s.length / 2) max := by
          rw [List.length_take]
          omega
        rw [decodeLoop_spec (Nat.zero_le max) hout valid, ok_bind, Nat.sub_zero, Nat.zero_add, count]
    · refine ⟨fun _ => ?_, fun h => ?_⟩
      · obtain ⟨out', hr⟩ := decodeLoop_fails odd (Nat.zero_le max) hout valid
        exact ⟨out', by rw [hr, ok_bind]⟩
      · exact absurd (fun c hc => not_not.1 fun hn => h (Or.inr ⟨c, hc, hn⟩)) valid
  · rw [if_pos odd]
    exact ⟨fun _ => ⟨out, rfl⟩, fun h => absurd (Or.inl (by omega)) h⟩

/-! ## Both together -/

/-- Encoding again, into a buffer of twice as many characters: what the buffer holds. -/
def reencoded (bytes : List UInt8) : Except Fault (Option (List UInt8)) := do
  let size := 2 * bytes.length
  let (_, out) ← encode (some bytes) bytes.length (some (List.replicate size 0)) size
  .ok out

theorem reencoded_eq {bs : List UInt8} (hbs : bs ≠ []) (h : 2 * bs.length < 2 ^ 64) :
    reencoded bs = .ok (some (chars bs)) := by
  have hpos : 0 < bs.length := List.length_pos_of_ne_nil hbs
  have all : bs.take (2 * bs.length / 2) = bs := List.take_of_length_le (by omega)
  have full : ¬ 2 * min bs.length (2 * bs.length / 2) < 2 * bs.length := by omega
  have digits : (List.replicate (2 * bs.length) (0 : UInt8)).drop (chars bs).length = [] := by
    rw [List.drop_eq_nil_iff, List.length_replicate, chars_length]
  have fresh : 2 * bs.length ≤ (List.replicate (2 * bs.length) (0 : UInt8)).length := by simp
  rw [reencoded]
  simp only [encode_spec bs (by omega) h fresh, ok_bind, all, if_neg full, List.append_nil,
    Lib.Blocks.write_start, digits]

theorem reencoded_length {bs t : List UInt8} (h : 2 * bs.length < 2 ^ 64)
    (coded : reencoded bs = .ok (some t)) : t.length = 2 * bs.length := by
  by_cases hbs : bs = []
  · subst hbs
    have nothing : reencoded [] = .ok (some []) := rfl
    rw [nothing] at coded
    cases coded
    rfl
  · rw [reencoded_eq hbs h] at coded
    cases coded
    exact chars_length bs

theorem malformed_chars {bs : List UInt8} {max : Nat} : ¬ Malformed (chars bs) max := by
  rintro (odd | ⟨c, hc, h⟩)
  · rw [chars_length] at odd
    omega
  · exact h (chars_digits (List.mem_of_mem_take hc)).1

/-- The digits of some bytes give the bytes back. -/
theorem decode_chars {bs back : List UInt8} {backMax : Nat} (hbs : bs ≠ [])
    (room : bs.length ≤ backMax) (hback : backMax ≤ back.length) (small : bs.length < 2 ^ 31) :
    decode (some (chars bs)) (2 * bs.length) (some back) backMax =
      .ok (bs.length, some (Lib.Blocks.write back 0 bs)) := by
  have hpos : 0 < bs.length := List.length_pos_of_ne_nil hbs
  have some_chars : chars bs ≠ [] := by
    rw [Ne, ← List.length_eq_zero_iff, chars_length]
    omega
  have gives := (decode_spec some_chars (by omega) hback).2 malformed_chars
  have all : (chars bs).take (2 * backMax) = chars bs :=
    List.take_of_length_le (by rw [chars_length]; omega)
  have count : min (2 * bs.length / 2) backMax = bs.length := by omega
  rwa [chars_length, count, i32_of_range (by omega) (by omega), all, bytes_chars] at gives

/-- The digits that `ct_hex_encode` gives, and the bytes that `ct_hex_decode` gives of them. -/
theorem encode_decodes (src : List UInt8) {out : List UInt8} {max : Nat} (hpos : 1 ≤ max)
    (hout : max ≤ out.length) (hsrc : src.length < 2 ^ 30) (hmax : max < 2 ^ 30) :
    ∃ (n : Nat) (out' : List UInt8),
      encode (some src) src.length (some out) max = .ok (n, some out') ∧
      n = 2 * min src.length (max / 2) ∧ out'.take n = chars (src.take (n / 2)) ∧
      ∀ (back : List UInt8) (backMax : Nat), 0 < n → n / 2 ≤ backMax → backMax ≤ back.length →
        ∃ back', decode (some (out'.take n)) n (some back) backMax =
            .ok ((n / 2 : Nat), some back') ∧ back'.take (n / 2) = src.take (n / 2) := by
  have encodes := encode_spec src hpos (by omega) hout
  have small : i32 (2 * min src.length (max / 2) : Nat) = (2 * min src.length (max / 2) : Nat) :=
    i32_of_range (by omega) (by omega)
  rw [small] at encodes
  have bound : (src.take (max / 2)).length = min src.length (max / 2) := by
    rw [List.length_take, Nat.min_comm]
  have count := chars_length (src.take (max / 2))
  rw [bound] at count
  have kept : src.take (min src.length (max / 2)) = src.take (max / 2) := by
    rw [Nat.min_comm, ← List.take_eq_take_min]
  have front : (Lib.Blocks.write out 0 (chars (src.take (max / 2)) ++
      if 2 * min src.length (max / 2) < max then [0] else [])).take
      (2 * min src.length (max / 2)) = chars (src.take (max / 2)) := by
    rw [Lib.Blocks.write_start, List.append_assoc, ← count, List.take_left]
  refine ⟨_, _, encodes, rfl, ?_, ?_⟩
  · rw [front, Nat.mul_div_cancel_left _ (by decide), kept]
  · intro back backMax positive room hback
    rw [Nat.mul_div_cancel_left _ (by decide)] at room ⊢
    have some_bytes : src.take (max / 2) ≠ [] := by
      rw [Ne, ← List.length_eq_zero_iff, bound]
      omega
    have gives := decode_chars some_bytes (bound.symm ▸ room) hback (by omega)
    rw [bound] at gives
    refine ⟨_, by rw [front, gives], ?_⟩
    rw [kept, ← bound, Lib.Blocks.write_start, List.take_left]

/-- The bytes that `ct_hex_decode` gives are counted as long as their number is an `int`. -/
theorem decode_iff {s : List UInt8} (hs : s ≠ []) {out : List UInt8} {max : Nat} (hpos : 1 ≤ max)
    (hout : max ≤ out.length) :
    ∃ r out', decode (some s) s.length (some out) max = .ok (r, some out') ∧
      (((r = -1 ↔ Malformed s max) ∧
        (¬ Malformed s max → reencoded (out'.take r.toNat) =
          .ok (some ((s.take (2 * max)).map lower)))) ↔
      Malformed s max ∨ min (s.length / 2) max < 2 ^ 31) := by
  obtain ⟨fails, gives⟩ := decode_spec hs hpos hout
  by_cases malformed : Malformed s max
  · obtain ⟨out', hr⟩ := fails malformed
    exact ⟨-1, out', hr, iff_of_true ⟨iff_of_true rfl malformed, fun h => absurd malformed h⟩
      (Or.inl malformed)⟩
  · have even : s.length % 2 = 0 := Nat.mod_two_ne_one.1 fun h => malformed (Or.inl h)
    have valid (c : UInt8) (hc : c ∈ s.take (2 * max)) : c ∈ digits :=
      not_not.1 fun h => malformed (Or.inr ⟨c, hc, h⟩)
    have long := List.length_pos_of_ne_nil hs
    have front_length : (s.take (2 * max)).length = 2 * min (s.length / 2) max := by
      rw [List.length_take]
      omega
    have count : (bytes (s.take (2 * max))).length = min (s.length / 2) max := by
      rw [bytes_length, front_length, Nat.mul_div_cancel_left _ (by decide)]
    have back : chars (bytes (s.take (2 * max))) = (s.take (2 * max)).map lower :=
      chars_bytes (by rw [front_length]; omega) valid
    refine ⟨_, _, gives malformed, ?_⟩
    simp only [malformed, iff_false, not_false_eq_true, true_imp_iff, false_or]
    constructor
    · rintro ⟨-, same⟩
      apply Nat.lt_of_not_le
      intro large
      have low := i32_lt (min (s.length / 2) max : Nat)
      have few : ((Lib.Blocks.write out 0 (bytes (s.take (2 * max)))).take
          (i32 (min (s.length / 2) max : Nat)).toNat).length ≤
          (i32 (min (s.length / 2) max : Nat)).toNat := List.length_take_le ..
      have lengths := reencoded_length (by omega) same
      rw [List.length_map, front_length] at lengths
      omega
    · intro small
      rw [i32_of_range (by omega) (by omega), Int.toNat_natCast]
      refine ⟨by omega, ?_⟩
      have written : (Lib.Blocks.write out 0 (bytes (s.take (2 * max)))).take
          (min (s.length / 2) max) = bytes (s.take (2 * max)) := by
        rw [Lib.Blocks.write_start, ← count, List.take_left]
      have some_bytes : bytes (s.take (2 * max)) ≠ [] := by
        rw [Ne, ← List.length_eq_zero_iff, count]
        omega
      rw [written, reencoded_eq some_bytes (by omega), back]

/-- **Hexadecimal strings.** `ct_hex_encode` gives the digits of the bytes that there is
room for, and `ct_hex_decode` of them the bytes. `ct_hex_decode` fails for the malformed
strings and no others, and encoding what it gives otherwise gives the characters it looked
at in lower case, exactly if the string is malformed or the number of bytes is an `int`. -/
theorem hex_iff (src s out : List UInt8) (max : Nat) (hpos : 1 ≤ max) (hout : max ≤ out.length) :
    (src.length < 2 ^ 30 → max < 2 ^ 30 → ∃ (n : Nat) (out' : List UInt8),
      encode (some src) src.length (some out) max = .ok (n, some out') ∧
      n = 2 * min src.length (max / 2) ∧ out'.take n = chars (src.take (n / 2)) ∧
      ∀ (back : List UInt8) (backMax : Nat), 0 < n → n / 2 ≤ backMax → backMax ≤ back.length →
        ∃ back', decode (some (out'.take n)) n (some back) backMax =
            .ok ((n / 2 : Nat), some back') ∧ back'.take (n / 2) = src.take (n / 2)) ∧
    (s ≠ [] →
      ∃ r out', decode (some s) s.length (some out) max = .ok (r, some out') ∧
        (((r = -1 ↔ Malformed s max) ∧
          (¬ Malformed s max → reencoded (out'.take r.toNat) =
            .ok (some ((s.take (2 * max)).map lower)))) ↔
        Malformed s max ∨ min (s.length / 2) max < 2 ^ 31)) :=
  ⟨encode_decodes src hpos hout, fun hs => decode_iff hs hpos hout⟩

/-- Two bytes with room for one and a half, and three characters with an upper case letter. -/
theorem hex_iff_two :
    (∃ (n : Nat) (out' : List UInt8), encode (some [0x1F, 0xA0]) 2 (some [9, 9, 9]) 3 = .ok (n, some out') ∧
      n = 2 * min 2 (3 / 2) ∧ out'.take n = chars ([0x1F, 0xA0].take (n / 2)) ∧
      ∀ (back : List UInt8) (backMax : Nat), 0 < n → n / 2 ≤ backMax → backMax ≤ back.length →
        ∃ back', decode (some (out'.take n)) n (some back) backMax =
            .ok ((n / 2 : Nat), some back') ∧ back'.take (n / 2) = [0x1F, 0xA0].take (n / 2)) ∧
    (∃ r out', decode (some [70, 48]) 2 (some [9]) 1 = .ok (r, some out') ∧
      (((r = -1 ↔ Malformed [70, 48] 1) ∧
        (¬ Malformed [70, 48] 1 → reencoded (out'.take r.toNat) =
          .ok (some (([70, 48].take (2 * 1)).map lower)))) ↔
      Malformed [70, 48] 1 ∨ min (2 / 2) 1 < 2 ^ 31)) :=
  ⟨(hex_iff [0x1F, 0xA0] [] [9, 9, 9] 3 (by decide) (by decide)).1 (by decide) (by decide),
    (hex_iff [] [70, 48] [9] 1 (by decide) (by decide)).2 (by decide)⟩

/-- 2 ^ 33 - 2 zeros are the digits of 2 ^ 32 - 1 bytes, a number that is -1 as an `int`. -/
theorem count_wraps :
    (∃ out', decode (some (List.replicate (2 * (2 ^ 32 - 1)) 48)) (2 * (2 ^ 32 - 1))
      (some (List.replicate (2 ^ 32 - 1) 0)) (2 ^ 32 - 1) = .ok (-1, some out')) ∧
    ¬ Malformed (List.replicate (2 * (2 ^ 32 - 1)) 48) (2 ^ 32 - 1) := by
  have general (n : Nat) (hn : 0 < n) (wraps : i32 n = -1) :
      (∃ out', decode (some (List.replicate (2 * n) 48)) (2 * n) (some (List.replicate n 0)) n =
        .ok (-1, some out')) ∧ ¬ Malformed (List.replicate (2 * n) 48) n := by
    have valid : ¬ Malformed (List.replicate (2 * n) 48) n := by
      rintro (odd | ⟨c, hc, h⟩)
      · rw [List.length_replicate] at odd
        omega
      · obtain rfl : c = 48 := (List.mem_replicate.1 (List.mem_of_mem_take hc)).2
        exact h (by decide)
    have some_chars : List.replicate (2 * n) (48 : UInt8) ≠ [] := by
      rw [Ne, List.replicate_eq_nil_iff]
      omega
    have fresh : n ≤ (List.replicate n (0 : UInt8)).length := by simp
    have gives := (decode_spec some_chars hn fresh).2 valid
    rw [List.length_replicate, Nat.mul_div_cancel_left _ (by decide), Nat.min_self, wraps] at gives
    exact ⟨⟨_, gives⟩, valid⟩
  exact general (2 ^ 32 - 1) (by decide) (by decide)

/-! ## Terminated strings -/

/-- The string that `ct_hex_encode` leaves: `n` characters and a terminator inside the
`max` bytes of `out`, and `ct_hex_decode` without a length finds the bytes in there. -/
structure Terminated (src : List UInt8) (max : Nat) (n : Int) (out : List UInt8) : Prop where
  inside : 0 ≤ n ∧ n < max
  terminator : out[n.toNat]? = some 0
  before : ∀ i < n.toNat, out[i]? ≠ some 0
  decoded : ∀ (back : List UInt8) (backMax : Nat), 0 < backMax → n.toNat / 2 ≤ backMax →
    backMax ≤ back.length → ∃ back', decode (some (out.take max)) 0 (some back) backMax =
      .ok ((n.toNat / 2 : Nat), some back') ∧ back'.take (n.toNat / 2) = src.take (n.toNat / 2)

theorem strlen_spec (s rest : List UInt8) (h : ∀ c ∈ s, c ≠ 0) :
    strlen (s ++ 0 :: rest) = .ok s.length := by
  induction s with
  | nil => rfl
  | cons c cs ih =>
    rw [List.cons_append, strlen, if_neg (h c (by simp)), ih fun d hd => h d (by simp [hd])]
    rfl

/-- Without a length, `ct_hex_decode` reads up to the terminator. -/
theorem decode_terminated (bs rest : List UInt8) {back : List UInt8} {backMax : Nat} (hpos : 0 < backMax)
    (room : bs.length ≤ backMax) (hback : backMax ≤ back.length) (small : bs.length < 2 ^ 31) :
    decode (some (chars bs ++ 0 :: rest)) 0 (some back) backMax =
      .ok (bs.length, some (Lib.Blocks.write back 0 bs)) := by
  have found : strlen (chars bs ++ 0 :: rest) = .ok (2 * bs.length) := by
    rw [strlen_spec (chars bs) rest fun c hc => (chars_digits hc).2.2, chars_length]
  have loaded : load (chars bs ++ 0 :: rest) 0 (2 * bs.length) = .ok (chars bs) := by
    rw [← chars_length, load_ok (by simp), Lib.Blocks.read, List.drop_zero, List.take_left]
  have all : (chars bs).take (2 * (backMax - 0)) = chars bs :=
    List.take_of_length_le (by rw [chars_length]; omega)
  have runs := decodeLoop_spec (s := chars bs) (j := 0) (Nat.zero_le backMax) hback
    fun c hc => (chars_digits (List.mem_of_mem_take hc)).1
  rw [all, chars_length, Nat.zero_add, Nat.mul_div_cancel_left _ (by decide),
    i32_of_range (by omega) (by omega), bytes_chars] at runs
  have even : ¬ 2 * bs.length % 2 ≠ 0 := by omega
  simp only [decode, if_neg (Nat.ne_of_gt hpos), if_true, found, ok_bind, if_neg even, loaded,
    runs]

theorem i32_even (k : Nat) : i32 (2 * k : Nat) ≠ -1 := by
  unfold i32
  rw [Int.bmod_def]
  omega

theorem i32_le (n : Nat) : (i32 n).toNat ≤ n := by
  unfold i32
  rw [Int.bmod_def]
  omega

/-- **Terminated strings.** A successful `ct_hex_encode` leaves a string that is
terminated inside its buffer, from which `ct_hex_decode` recovers the bytes without being
told the length and without a look behind the buffer, exactly if the digits leave a byte of
the buffer and their number is an `int`. -/
theorem terminated_iff (src : List UInt8) {out : List UInt8} {max : Nat} (hpos : 1 ≤ max)
    (hmax : max < 2 ^ 64) (hout : max ≤ out.length) :
    ∃ n out', encode (some src) src.length (some out) max = .ok (n, some out') ∧
      ((n ≠ -1 → Terminated src max n out') ↔
        2 * min src.length (max / 2) < max ∧ 2 * min src.length (max / 2) < 2 ^ 31) := by
  have encodes := encode_spec src hpos hmax hout
  have bound : (src.take (max / 2)).length = min src.length (max / 2) := by
    rw [List.length_take, Nat.min_comm]
  have kept : src.take (min src.length (max / 2)) = src.take (max / 2) := by
    rw [Nat.min_comm, ← List.take_eq_take_min]
  have count := chars_length (src.take (max / 2))
  rw [bound] at count
  refine ⟨_, _, encodes, ?_⟩
  rw [Lib.Blocks.write_start, List.append_assoc]
  have nonzero (tail : List UInt8) (i : Nat) (hi : i < 2 * min src.length (max / 2)) :
      (chars (src.take (max / 2)) ++ tail)[i]? ≠ some 0 := by
    rw [List.getElem?_append_left (by omega)]
    exact fun h => (chars_digits (List.mem_of_getElem? h)).2.2 rfl
  constructor
  · intro h
    obtain ⟨⟨nonneg, below⟩, terminator, -, -⟩ := h (i32_even _)
    have least : 2 * min src.length (max / 2) ≤ (i32 (2 * min src.length (max / 2) : Nat)).toNat :=
      Nat.le_of_not_lt fun lt => nonzero _ _ lt terminator
    have most := i32_le (2 * min src.length (max / 2))
    have small := i32_lt (2 * min src.length (max / 2) : Nat)
    omega
  · rintro ⟨room, small⟩ -
    rw [i32_of_range (by omega) (by omega), if_pos room]
    generalize hrest : out.drop (chars (src.take (max / 2)) ++ [0]).length = rest
    have behind : (chars (src.take (max / 2)) ++ ([0] ++ rest)).take max =
        chars (src.take (max / 2)) ++ 0 :: rest.take (max - 2 * min src.length (max / 2) - 1) := by
      rw [List.take_append, List.take_of_length_le (by omega), count]
      congr 1
      rw [List.take_append, List.take_of_length_le (by simp only [List.length_singleton]; omega)]
      rfl
    refine ⟨by omega, ?_, fun i hi => nonzero _ i (by omega), ?_⟩
    · rw [Int.toNat_natCast, List.getElem?_append_right (by omega), count, Nat.sub_self]
      rfl
    · intro back backMax positive enough hback
      rw [Int.toNat_natCast, Nat.mul_div_cancel_left _ (by decide)] at enough ⊢
      have gives := decode_terminated (src.take (max / 2))
        (rest.take (max - 2 * min src.length (max / 2) - 1)) positive (by omega) hback (by omega)
      rw [bound] at gives
      refine ⟨_, by rw [behind, gives], ?_⟩
      rw [kept, ← bound, Lib.Blocks.write_start, List.take_left]

/-- One byte into three characters. -/
theorem terminated_iff_one : ∃ n out', encode (some [0xAB]) 1 (some [9, 9, 9]) 3 = .ok (n, some out') ∧
    ((n ≠ -1 → Terminated [0xAB] 3 n out') ↔ 2 * min 1 (3 / 2) < 3 ∧ 2 * min 1 (3 / 2) < 2 ^ 31) :=
  terminated_iff [0xAB] (by decide) (by decide) (by decide)

/-- One byte into two characters: `ct_hex_decode` looks for the terminator behind them. -/
theorem unterminated : encode (some [0xAB]) 1 (some [9, 9]) 2 = .ok (2, some [97, 98]) ∧
    decode (some [97, 98]) 0 (some [0]) 1 = .error .bounds := by
  decide

end Coter.Hex
