import Coter.Crypto.Hash

/-!
# Reference values

* `siphash_eq`: `ct_hashalgo_siphash_64` is SipHash-2-4;
* `murmur_unsigned`: `ct_hashalgo_murmurhash2` is MurmurHash2 where plain `char` is unsigned;
* `polynomial_iff`: what the signs of characters take from a polynomial hash;
* `sign_free`: the strings whose hashes do not depend on the sign of plain `char`.
-/

namespace Coter.Hash

open Lib.Blocks Lib.ByteOrder Lib.BlockHash
open Lib.SipHash (State)

/-! ## SipHash -/

theorem ROTATE_eq (x : BitVec 64) {n : Nat} (h : n < 64) : ROTATE x n = x.rotateLeft n := by
  rw [ROTATE, BitVec.rotateLeft_eq_rotateLeftAux_of_lt h, BitVec.rotateLeftAux]

/-- Two half rounds are a round, with the parts of a round in another order. -/
theorem DOUBLE_ROUND_eq (v : State) : DOUBLE_ROUND v = Lib.SipHash.round^[2] v := by
  simp only [DOUBLE_ROUND, HALF_ROUND, ROTATE_eq _ (show 13 < 64 by decide),
    ROTATE_eq _ (show 16 < 64 by decide), ROTATE_eq _ (show 17 < 64 by decide),
    ROTATE_eq _ (show 21 < 64 by decide), ROTATE_eq _ (show 32 < 64 by decide)]
  rfl

theorem le_get_u64_ok (host : Endian) {buf : List UInt8} {o : Nat} (h : o + 8 ≤ buf.length) :
    le_get_u64 host buf o = .ok (Lib.SipHash.word (read buf o 8)) := by
  have length : (read buf o 8).length = 8 := read_length h
  rw [le_get_u64, load_ok h, ok_bind]
  cases host with
  | little => rfl
  | big =>
    -- The bytes of the word that is loaded are those of the buffer in reverse.
    apply congrArg Except.ok
    apply @Binary.split_inj 64 8 _ _ (by decide)
    have bytes (bs : List UInt8) (h : bs.length = 8) :
        split 8 (BitVec.ofNat 64 (combine bs)).toNat = bs := by
      rw [BitVec.toNat_ofNat, show 2 ^ 64 = 256 ^ 8 from rfl, split_mod]
      simpa only [h] using split_combine bs
    rw [Binary.split_bswap64]
    change (split 8 (BitVec.ofNat 64 (combine (read buf o 8).reverse)).toNat).reverse =
      split 8 (BitVec.ofNat 64 (combine (read buf o 8))).toNat
    rw [bytes _ length, bytes _ (by rw [List.length_reverse, length]), List.reverse_reverse]

theorem siphash_loop_eq (host : Endian) (v : State) (data : List UInt8) :
    siphash_loop host v data = .ok (absorb (Lib.SipHash.compress 2) 8 v data) := by
  fun_induction absorb (Lib.SipHash.compress 2) 8 v data with
  | case1 v data more ih =>
    rw [siphash_loop, if_pos more.2, le_get_u64_ok host more.2, ok_bind]
    simp only [DOUBLE_ROUND_eq]
    exact ih
  | case2 v data less =>
    rw [siphash_loop, if_neg (by omega)]
    rfl

/-- The switch copies what is left of the data. -/
theorem siphash_switch_eq {m : List UInt8} (h : m.length < 8) :
    siphash_switch (List.replicate 8 0) m m.length =
      .ok (m ++ List.replicate (8 - m.length) 0) := by
  match m, h with
  | [], _ =>
    rw [List.length_nil, siphash_switch]
    · rfl
    all_goals simp
  | [b0], _ => simp [siphash_switch, copy, load, store, Lib.Blocks.read, write]
  | [b0, b1], _ => simp [siphash_switch, copy, load, store, Lib.Blocks.read, write]
  | [b0, b1, b2], _ => simp [siphash_switch, copy, load, store, Lib.Blocks.read, write]
  | [b0, b1, b2, b3], _ => simp [siphash_switch, load, store, Lib.Blocks.read, write]
  | [b0, b1, b2, b3, b4], _ => simp [siphash_switch, copy, load, store, Lib.Blocks.read, write]
  | [b0, b1, b2, b3, b4, b5], _ =>
    simp [siphash_switch, copy, load, store, Lib.Blocks.read, write]
  | [b0, b1, b2, b3, b4, b5, b6], _ =>
    simp [siphash_switch, copy, load, store, Lib.Blocks.read, write]

/-- The last word: what is left of the data, and the length in its last byte. -/
theorem last_word {m : List UInt8} (h : m.length < 8) (size : Nat) :
    BitVec.ofNat 64 size <<< 56 ||| Lib.SipHash.word (m ++ List.replicate (8 - m.length) 0) =
      Lib.SipHash.word (m ++ List.replicate (7 - m.length) 0 ++ [UInt8.ofNat size]) := by
  have low : (m ++ List.replicate (7 - m.length) (0 : UInt8)).length = 7 := by
    rw [List.length_append, List.length_replicate]
    omega
  have small : combine (m ++ List.replicate (7 - m.length) 0) < 2 ^ 56 := by
    have lt := combine_lt (m ++ List.replicate (7 - m.length) 0)
    rwa [low] at lt
  have zero : m ++ List.replicate (8 - m.length) (0 : UInt8) =
      m ++ List.replicate (7 - m.length) 0 ++ [0] := by
    rw [show 8 - m.length = 7 - m.length + 1 by omega, List.replicate_succ', List.append_assoc]
  have value (b : UInt8) :
      (Lib.SipHash.word (m ++ List.replicate (7 - m.length) 0 ++ [b])).toNat =
        combine (m ++ List.replicate (7 - m.length) 0) + 2 ^ 56 * b.toNat := by
    have byte := b.toNat_lt
    change (BitVec.ofNat 64 (combine (m ++ List.replicate (7 - m.length) 0 ++ [b]))).toNat = _
    rw [BitVec.toNat_ofNat, combine_append, low]
    simp only [combine]
    omega
  have high : (BitVec.ofNat 64 size <<< 56).toNat = 2 ^ 56 * (size % 256) := by
    rw [BitVec.toNat_shiftLeft, BitVec.toNat_ofNat, Nat.shiftLeft_eq]
    omega
  apply BitVec.eq_of_toNat_eq
  rw [zero, BitVec.toNat_or, value, value, high, UInt8.toNat_ofNat', UInt8.toNat_zero, Nat.mul_zero,
    Nat.add_zero, ← Nat.two_pow_add_eq_or_of_lt small, Nat.add_comm]

/-- The padded message is absorbed with one word more. -/
theorem absorb_padded (v : State) (m : List UInt8) :
    (absorb (Lib.SipHash.compress 2) 8 v (Lib.SipHash.padded m)).1 =
      Lib.SipHash.compress 2 (absorb (Lib.SipHash.compress 2) 8 v m).1
        ((absorb (Lib.SipHash.compress 2) 8 v m).2 ++
          List.replicate (7 - (absorb (Lib.SipHash.compress 2) 8 v m).2.length) 0 ++
          [UInt8.ofNat m.length]) := by
  have rest : (absorb (Lib.SipHash.compress 2) 8 v m).2.length = m.length % 8 :=
    absorb_rest_length _ _ (by decide)
  have block : ((absorb (Lib.SipHash.compress 2) 8 v m).2 ++
      (List.replicate (7 - m.length % 8) 0 ++ [UInt8.ofNat m.length])).length = 8 := by
    simp only [List.length_append, List.length_replicate, List.length_singleton, rest]
    omega
  have single := absorb_block (f := Lib.SipHash.compress 2)
    (absorb (Lib.SipHash.compress 2) 8 v m).1 [] (by decide) block
  rw [List.append_nil, absorb_short (m := []) _ (by decide)] at single
  rw [Lib.SipHash.padded, List.append_assoc, absorb_append _ _ _ (by decide), single, rest,
    List.append_assoc]

/-- The last word and the rounds at the end. -/
theorem finish_eq (v : State) (block : List UInt8) :
    (let b := Lib.SipHash.word block
    let v := DOUBLE_ROUND { v with v3 := v.v3 ^^^ b }
    let v := { v with v0 := v.v0 ^^^ b }
    let v := DOUBLE_ROUND (DOUBLE_ROUND { v with v2 := v.v2 ^^^ 0xff })
    (v.v0 ^^^ v.v1) ^^^ (v.v2 ^^^ v.v3)) =
    (let v := Lib.SipHash.compress 2 v block
    let v := Lib.SipHash.round^[4] { v with v2 := v.v2 ^^^ 0xff }
    v.v0 ^^^ v.v1 ^^^ v.v2 ^^^ v.v3) := by
  dsimp only
  rw [DOUBLE_ROUND_eq, DOUBLE_ROUND_eq, DOUBLE_ROUND_eq, ← Function.iterate_add_apply,
    BitVec.xor_assoc (_ ^^^ _)]
  rfl

/-- **SipHash-2-4.** The value is that of the reference, for every key and message, on a host of
either byte order. -/
theorem siphash_eq (host : Endian) (m key : List UInt8) (h : key.length = 16) :
    siphash_64 host (some m) key = .ok (Lib.SipHash.sipHash 2 4 key m) := by
  have few : (absorb (Lib.SipHash.compress 2) 8 (Lib.SipHash.start key) m).2.length < 8 := by
    rw [absorb_rest_length _ _ (by decide)]
    exact Nat.mod_lt _ (by decide)
  have k1 : read key 8 8 = key.drop 8 :=
    List.take_of_length_le (by rw [List.length_drop, h])
  have last (l : List UInt8) (hl : l.length < 8) :
      le_get_u64 host (l ++ List.replicate (8 - l.length) 0) 0 =
        .ok (Lib.SipHash.word (l ++ List.replicate (8 - l.length) 0)) := by
    have length : (l ++ List.replicate (8 - l.length) (0 : UInt8)).length = 8 := by
      rw [List.length_append, List.length_replicate]
      omega
    rw [le_get_u64_ok host (by omega), Lib.Blocks.read, List.drop_zero,
      List.take_of_length_le (by omega)]
  rw [siphash_64, le_get_u64_ok host (by omega), ok_bind, le_get_u64_ok host (by omega), ok_bind, k1]
  change (siphash_loop host (Lib.SipHash.start key) m >>= _) = _
  rw [siphash_loop_eq, ok_bind]
  dsimp only
  rw [siphash_switch_eq few, ok_bind, last _ few, ok_bind, last_word few, Lib.SipHash.sipHash,
    absorb_padded]
  exact congrArg Except.ok (finish_eq _ _)

theorem siphash_eq_vector : siphash_64 .big (some [0, 1, 2])
    [0, 1, 2, 3, 4, 5, 6, 7, 8, 9, 10, 11, 12, 13, 14, 15] =
      .ok (Lib.SipHash.sipHash 2 4 [0, 1, 2, 3, 4, 5, 6, 7, 8, 9, 10, 11, 12, 13, 14, 15]
        [0, 1, 2]) :=
  siphash_eq .big [0, 1, 2] [0, 1, 2, 3, 4, 5, 6, 7, 8, 9, 10, 11, 12, 13, 14, 15] rfl

/-! ## MurmurHash2 -/

theorem word_unsigned (b0 b1 b2 b3 : UInt8) :
    char .unsigned b0 ||| char .unsigned b1 <<< 8 ||| char .unsigned b2 <<< 16 |||
      char .unsigned b3 <<< 24 = Lib.Murmur.word [b0, b1, b2, b3] := bytes_or b0 b1 b2 b3

theorem murmur_loop_eq (h : BitVec 32) (data : List UInt8) :
    murmur_loop .unsigned h data = absorb Lib.Murmur.mix 4 h data := by
  match data with
  | b0 :: b1 :: b2 :: b3 :: data =>
    have block : ([b0, b1, b2, b3] : List UInt8).length = 4 := rfl
    have step := absorb_block (f := Lib.Murmur.mix) h data (by decide) block
    rw [murmur_loop, word_unsigned, murmur_loop_eq _ data]
    exact step.symm
  | [] => rw [absorb_short _ (by simp)]; rfl
  | [b0] => rw [absorb_short _ (by simp)]; rfl
  | [b0, b1] => rw [absorb_short _ (by simp)]; rfl
  | [b0, b1, b2] => rw [absorb_short _ (by simp)]; rfl

/-- The bytes of the tail, one after another or all at once. -/
theorem xor_bytes (h : BitVec 32) (b0 b1 b2 : UInt8) :
    h ^^^ char .unsigned b2 <<< 16 ^^^ char .unsigned b1 <<< 8 ^^^ char .unsigned b0 =
      h ^^^ Lib.Murmur.word [b0, b1, b2, 0] := by
  rw [← word_unsigned, BitVec.xor_assoc, BitVec.xor_assoc]
  congr 1
  apply BitVec.eq_of_getLsbD_eq
  intro i hi
  unfold char
  interval_cases i <;> simp

theorem word_zero (block : List UInt8) :
    Lib.Murmur.word (block ++ [0]) = Lib.Murmur.word block := by
  have same : combine (block ++ [0]) = combine block := by
    rw [combine_append]
    rfl
  exact congrArg (BitVec.ofNat 32) same

theorem murmur_switch_eq (h : BitVec 32) {rest : List UInt8} (few : rest.length < 4) :
    murmur_switch .unsigned h rest rest.length = Lib.Murmur.tail h rest := by
  have zero (n : Nat) : h ^^^ char .unsigned 0 <<< n = h := by
    have none : char .unsigned 0 = 0#32 := rfl
    rw [none, BitVec.zero_shiftLeft, BitVec.xor_zero]
  unfold Lib.Murmur.tail
  match rest, few with
  | [], _ => simp [murmur_switch]
  | [b0], _ =>
    have bytes := xor_bytes h b0 0 0
    rw [zero, zero] at bytes
    rw [if_neg (List.cons_ne_nil _ _), ← word_zero, ← word_zero, ← word_zero]
    simp [murmur_switch, bytes]
  | [b0, b1], _ =>
    have bytes := xor_bytes h b0 b1 0
    rw [zero] at bytes
    rw [if_neg (List.cons_ne_nil _ _), ← word_zero, ← word_zero]
    simp [murmur_switch, bytes]
  | [b0, b1, b2], _ =>
    have bytes := xor_bytes h b0 b1 b2
    rw [if_neg (List.cons_ne_nil _ _), ← word_zero]
    simp [murmur_switch, bytes]

/-- Where plain `char` is unsigned, the value is that of the reference. -/
theorem murmur_unsigned (data : List UInt8) :
    murmurhash2 .unsigned (some data) = Lib.Murmur.murmur2 0 data := by
  have few : (absorb Lib.Murmur.mix 4 (0 ^^^ BitVec.ofNat 32 data.length) data).2.length < 4 := by
    rw [absorb_rest_length _ _ (by decide)]
    exact Nat.mod_lt _ (by decide)
  rw [murmurhash2, notNull]
  dsimp only
  rw [murmur_loop_eq, murmur_switch_eq _ few]
  rfl

/-! ## Signs -/

/-- A byte that is negative as a signed character. -/
def high (b : UInt8) : Bool := 0x80 ≤ b

/-- What the sign of a character takes from its value. -/
theorem char_signed (b : UInt8) :
    char .signed b = char .unsigned b - 256 * BitVec.ofNat 32 (high b).toNat := by
  have lt : b.toNat < 256 := b.toNat_lt
  have sign : b.toBitVec.msb = high b := by
    rw [BitVec.msb_eq_decide, high]
    exact decide_eq_decide.2 (UInt8.le_iff_toNat_le (a := 0x80)).symm
  have bit : high b = decide (128 ≤ b.toNat) := decide_eq_decide.2 UInt8.le_iff_toNat_le
  apply BitVec.eq_of_toNat_eq
  unfold char
  dsimp only
  rw [BitVec.toNat_signExtend, sign, BitVec.toNat_sub, BitVec.toNat_mul, BitVec.toNat_ofNat,
    BitVec.toNat_setWidth, UInt8.toNat_toBitVec, bit, show (256 : BitVec 32).toNat = 256 from rfl]
  by_cases neg : 128 ≤ b.toNat
  · simp only [neg, decide_true, ↓reduceIte, Bool.toNat_true]
    omega
  · simp only [neg, decide_false, Bool.false_eq_true, ↓reduceIte, Bool.toNat_false]
    omega

theorem char_low (plain : Plain) {b : UInt8} (h : high b = false) :
    char plain b = char .unsigned b := by
  cases plain with
  | unsigned => rfl
  | signed => rw [char_signed, h, Bool.toNat_false, BitVec.mul_zero, BitVec.sub_zero]

/-- The negative characters, as digits to the base `w`. -/
def weight (w : Nat) (n : Nat) (data : List UInt8) : Nat :=
  data.foldl (fun sum b => sum * w + (high b).toNat) n

/-- What the signs take from a polynomial hash. -/
theorem polynomial_signed (w : Nat) (data : List UInt8) (hash : BitVec 32) (n : Nat) :
    data.foldl (fun hash b => hash * BitVec.ofNat 32 w + char .signed b)
      (hash - 256 * BitVec.ofNat 32 n) =
    data.foldl (fun hash b => hash * BitVec.ofNat 32 w + char .unsigned b) hash -
      256 * BitVec.ofNat 32 (weight w n data) := by
  induction data generalizing hash n with
  | nil => rfl
  | cons b data ih =>
    have first : (hash - 256 * BitVec.ofNat 32 n) * BitVec.ofNat 32 w + char .signed b =
        (hash * BitVec.ofNat 32 w + char .unsigned b) -
          256 * BitVec.ofNat 32 (n * w + (high b).toNat) := by
      rw [char_signed, BitVec.ofNat_add, BitVec.ofNat_mul]
      ring
    rw [List.foldl_cons, first, ih]
    rfl

/-- The signs take nothing when their weight is a multiple of `2 ^ 24`. -/
theorem polynomial_iff (w : Nat) (data : List UInt8) (hash : BitVec 32) :
    data.foldl (fun hash b => hash * BitVec.ofNat 32 w + char .signed b) hash =
      data.foldl (fun hash b => hash * BitVec.ofNat 32 w + char .unsigned b) hash ↔
    2 ^ 24 ∣ weight w 0 data := by
  have signed := polynomial_signed w data hash 0
  rw [show 256 * BitVec.ofNat 32 0 = 0 from rfl, sub_zero] at signed
  have scaled : (256 * BitVec.ofNat 32 (weight w 0 data)).toNat =
      256 * weight w 0 data % 2 ^ 32 := by
    rw [BitVec.toNat_mul, BitVec.toNat_ofNat, Nat.mul_mod_mod]
    rfl
  rw [signed, sub_eq_self, ← BitVec.toNat_inj, scaled, show (0 : BitVec 32).toNat = 0 from rfl]
  omega

theorem times33_eq (plain : Plain) (data : List UInt8) :
    times33 plain (some data) =
      data.foldl (fun hash b => hash * BitVec.ofNat 32 33 + char plain b) 5381 := by
  have shift (hash : BitVec 32) : hash <<< 5 + hash = hash * BitVec.ofNat 32 33 := by
    apply BitVec.eq_of_toNat_eq
    rw [BitVec.toNat_add, BitVec.toNat_shiftLeft, BitVec.toNat_mul, BitVec.toNat_ofNat,
      Nat.shiftLeft_eq]
    omega
  rw [times33, notNull]
  simp only [shift]

/-- The number of negative characters, by their weight. -/
theorem weight_count (data : List UInt8) (n : Nat) :
    weight 33 n data % 32 = (n + data.countP high) % 32 := by
  induction data generalizing n with
  | nil => rfl
  | cons b data ih =>
    rw [weight, List.foldl_cons]
    change weight 33 _ data % 32 = _
    rw [ih, List.countP_cons]
    cases high b with
    | false =>
      simp only [Bool.toNat_false, Bool.false_eq_true, ↓reduceIte]
      omega
    | true =>
      simp only [Bool.toNat_true, ↓reduceIte]
      omega

theorem murmur_loop_low (plain : Plain) (h : BitVec 32) {data : List UInt8}
    (low : ∀ b ∈ data, high b = false) :
    murmur_loop plain h data = murmur_loop .unsigned h data := by
  match data with
  | b0 :: b1 :: b2 :: b3 :: data =>
    have rest : ∀ b ∈ data, high b = false := fun b hb => low b (by simp [hb])
    rw [murmur_loop, murmur_loop, char_low plain (low b0 (by simp)),
      char_low plain (low b1 (by simp)), char_low plain (low b2 (by simp)),
      char_low plain (low b3 (by simp))]
    exact murmur_loop_low plain _ rest
  | [] => rfl
  | [b0] => rfl
  | [b0, b1] => rfl
  | [b0, b1, b2] => rfl

theorem murmur_switch_low (plain : Plain) (h : BitVec 32) {data : List UInt8}
    (low : ∀ i, char plain (data.getD i 0) = char .unsigned (data.getD i 0)) (n : Nat) :
    murmur_switch plain h data n = murmur_switch .unsigned h data n := by
  match n with
  | 0 => simp only [murmur_switch]
  | 1 => simp only [murmur_switch, low]
  | 2 => simp only [murmur_switch, low]
  | 3 => simp only [murmur_switch, low]
  | n + 4 => simp only [murmur_switch]

/-- The hashes of a string do not depend on the sign of plain `char`, and the last of them
is that of the reference. -/
structure SignFree (data : List UInt8) : Prop where
  times33 : Hash.times33 .signed (some data) = Hash.times33 .unsigned (some data)
  bkdr : Hash.bkdr .signed (some data) = Hash.bkdr .unsigned (some data)
  pjw : Hash.pjw .signed (some data) = Hash.pjw .unsigned (some data)
  murmurhash2 : Hash.murmurhash2 .signed (some data) = Hash.murmurhash2 .unsigned (some data)
  reference (plain : Plain) : Hash.murmurhash2 plain (some data) = Lib.Murmur.murmur2 0 data

theorem sign_free_low {data : List UInt8} (low : ∀ b ∈ data, high b = false) : SignFree data := by
  have same (plain : Plain) : ∀ b ∈ data, char plain b = char .unsigned b :=
    fun b hb => char_low plain (low b hb)
  have murmur (plain : Plain) :
      murmurhash2 plain (some data) = murmurhash2 .unsigned (some data) := by
    have rest (i : Nat) (l : List UInt8) (h : ∀ b ∈ l, high b = false) :
        char plain (l.getD i 0) = char .unsigned (l.getD i 0) := by
      rw [List.getD_eq_getElem?_getD]
      cases get : l[i]? with
      | none => exact char_low plain rfl
      | some b => exact char_low plain (h b (List.mem_of_getElem? get))
    have kept : ∀ b ∈ (murmur_loop .unsigned (0 ^^^ BitVec.ofNat 32 data.length) data).2,
        high b = false := by
      rw [murmur_loop_eq, absorb_rest _ _ (by decide)]
      exact fun b hb => low b (List.mem_of_mem_drop hb)
    rw [murmurhash2, murmurhash2, notNull, notNull]
    dsimp only
    rw [murmur_loop_low plain _ low, murmur_switch_low plain _ fun i => rest i _ kept]
  refine ⟨?_, ?_, ?_, murmur .signed, fun plain => (murmur plain).trans (murmur_unsigned data)⟩
  · exact List.foldl_ext _ _ _ fun hash b hb => by rw [same .signed b hb]
  · exact List.foldl_ext _ _ _ fun hash b hb => by rw [same .signed b hb]
  · exact List.foldl_ext _ _ _ fun val b hb => by rw [pjw_step, pjw_step, same .signed b hb]

/-- **Signs of characters.** The hashes do not depend on the sign of plain `char` where no
byte is negative; where some bytes are, they do unless these cancel out, which takes a
multiple of 32 of them and their weights a multiple of `2 ^ 24`. -/
theorem sign_free (data : List UInt8) :
    ((∀ b ∈ data, high b = false) → SignFree data) ∧
      (SignFree data → 32 ∣ data.countP high ∧ 2 ^ 24 ∣ weight 33 0 data ∧
        2 ^ 24 ∣ weight 131 0 data) := by
  refine ⟨sign_free_low, fun free => ?_⟩
  have times := free.times33
  rw [times33_eq, times33_eq] at times
  have weight33 := (polynomial_iff 33 data 5381).1 times
  have weight131 := (polynomial_iff 131 data 0).1 free.bkdr
  have count := weight_count data 0
  exact ⟨by omega, weight33, weight131⟩

theorem sign_free_abc : SignFree [0x61, 0x62, 0x63] :=
  (sign_free [0x61, 0x62, 0x63]).1 (by simp [high])

/-- One negative byte. -/
theorem sign_kept : ¬SignFree [0x80] := by
  intro free
  have times := free.times33
  have one : weight 33 0 [0x80] = 1 := rfl
  rw [times33_eq, times33_eq, polynomial_iff, one] at times
  omega

end Coter.Hash
