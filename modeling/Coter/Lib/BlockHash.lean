import Coter.Lib.ByteOrder

/-!
# Hashing block by block

A hash function that compresses blocks of 64 bytes into a state, with the message followed
by a single bit, zeros, and its number of bits.

* `absorb`: the state after the whole blocks of a message, and the bytes left over;
* `absorb_append`: what is left over and a second message, after the first;
* `absorb_blocks`: the blocks that were compressed;
* `count_bits`: a number of bits in two halves with a carry;
* `digest_short`, `digest_long`: the padding fills the last block, or takes one more.
-/

namespace Lib.BlockHash

open Lib.ByteOrder

/-! ## Whole blocks -/

section

variable {σ α : Type} {f : σ → List α → σ} {n : Nat}

/-- The state after all whole blocks of `n`, and the rest of the message. -/
def absorb (f : σ → List α → σ) (n : Nat) (s : σ) (m : List α) : σ × List α :=
  if _ : 0 < n ∧ n ≤ m.length then absorb f n (f s (m.take n)) (m.drop n) else (s, m)
termination_by m.length
decreasing_by
  rw [List.length_drop]
  omega

theorem absorb_short {m : List α} (s : σ) (h : m.length < n) : absorb f n s m = (s, m) := by
  rw [absorb, dif_neg (by omega)]

theorem absorb_block {b : List α} (s : σ) (m : List α) (hn : 0 < n) (hb : b.length = n) :
    absorb f n s (b ++ m) = absorb f n (f s b) m := by
  subst hb
  rw [absorb, dif_pos ⟨hn, by rw [List.length_append]; omega⟩, List.take_left, List.drop_left]

/-- A message is absorbed after another one by going on with what that one left over. -/
theorem absorb_append (s : σ) (m c : List α) (hn : 0 < n) :
    absorb f n s (m ++ c) = absorb f n (absorb f n s m).1 ((absorb f n s m).2 ++ c) := by
  fun_induction absorb f n s m with
  | case1 s m h ih =>
    have whole : m ++ c = m.take n ++ (m.drop n ++ c) := by
      rw [← List.append_assoc, List.take_append_drop]
    rw [whole, absorb_block s _ hn (List.length_take_of_le h.2), ih]
  | case2 s m h => rfl

/-- The blocks of a message, one after another, and what is left over. -/
theorem absorb_blocks (s : σ) (m : List α) :
    ∃ blocks : List (List α), (∀ b ∈ blocks, b.length = n) ∧
      (absorb f n s m).1 = blocks.foldl f s ∧ m = blocks.flatten ++ (absorb f n s m).2 := by
  fun_induction absorb f n s m with
  | case1 s m h ih =>
    obtain ⟨blocks, sizes, state, whole⟩ := ih
    refine ⟨m.take n :: blocks, ?_, state, ?_⟩
    · rintro b (_ | ⟨_, hb⟩)
      · exact List.length_take_of_le h.2
      · exact sizes b hb
    · rw [List.flatten_cons, List.append_assoc, ← whole, List.take_append_drop]
  | case2 s m h => exact ⟨[], by simp, rfl, rfl⟩

theorem absorb_rest (s : σ) (m : List α) (hn : 0 < n) :
    (absorb f n s m).2 = m.drop (m.length - m.length % n) := by
  fun_induction absorb f n s m with
  | case1 s m h ih =>
    have less : (m.length - n) % n ≤ m.length - n := Nat.mod_le _ _
    rw [ih, List.drop_drop, List.length_drop, Nat.mod_eq_sub_mod h.2]
    congr 1
    omega
  | case2 s m h => rw [Nat.mod_eq_of_lt (by omega), Nat.sub_self, List.drop_zero]

theorem absorb_congr {g : σ → List α → σ} (h : ∀ s b, b.length = n → f s b = g s b) (s : σ)
    (m : List α) : absorb f n s m = absorb g n s m := by
  fun_induction absorb f n s m with
  | case1 s m more ih =>
    rw [ih, h s _ (List.length_take_of_le more.2)]
    exact (by rw [absorb, dif_pos more] : absorb g n s m = _).symm
  | case2 s m less => rw [absorb, dif_neg less]

theorem absorb_rest_length (s : σ) (m : List α) (hn : 0 < n) :
    (absorb f n s m).2.length = m.length % n := by
  fun_induction absorb f n s m with
  | case1 s m h ih => rw [ih, List.length_drop, ← Nat.mod_eq_sub_mod h.2]
  | case2 s m h =>
    have short : m.length < n := by omega
    exact (Nat.mod_eq_of_lt short).symm

end

/-! ## Words and counters -/

theorem bytes_or (b0 b1 b2 b3 : UInt8) :
    b0.toBitVec.setWidth 32 ||| b1.toBitVec.setWidth 32 <<< 8 ||| b2.toBitVec.setWidth 32 <<< 16 |||
      b3.toBitVec.setWidth 32 <<< 24 = BitVec.ofNat 32 (combine [b0, b1, b2, b3]) := by
  have h0 := b0.toNat_lt
  have h1 := b1.toNat_lt
  have h2 := b2.toNat_lt
  have h3 := b3.toNat_lt
  have low1 : b0.toNat < 2 ^ 8 := h0
  have low2 : 2 ^ 8 * b1.toNat + b0.toNat < 2 ^ 16 := by omega
  have low3 : 2 ^ 16 * b2.toNat + (2 ^ 8 * b1.toNat + b0.toNat) < 2 ^ 24 := by omega
  apply BitVec.eq_of_toNat_eq
  simp only [BitVec.toNat_or, BitVec.toNat_shiftLeft, BitVec.toNat_setWidth, UInt8.toNat_toBitVec,
    BitVec.toNat_ofNat, Nat.shiftLeft_eq, combine]
  rw [Nat.mod_eq_of_lt (a := b0.toNat) (by omega), Nat.mod_eq_of_lt (a := b1.toNat) (by omega),
    Nat.mod_eq_of_lt (a := b2.toNat) (by omega), Nat.mod_eq_of_lt (a := b3.toNat) (by omega),
    Nat.mod_eq_of_lt (a := b1.toNat * 2 ^ 8) (by omega),
    Nat.mod_eq_of_lt (a := b2.toNat * 2 ^ 16) (by omega),
    Nat.mod_eq_of_lt (a := b3.toNat * 2 ^ 24) (by omega),
    Nat.or_comm b0.toNat, Nat.mul_comm b1.toNat, ← Nat.two_pow_add_eq_or_of_lt low1,
    Nat.or_comm _ (b2.toNat * _), Nat.mul_comm b2.toNat, ← Nat.two_pow_add_eq_or_of_lt low2,
    Nat.or_comm, Nat.mul_comm b3.toNat, ← Nat.two_pow_add_eq_or_of_lt low3]
  omega

/-- A number of bits, with the carry between its halves. -/
theorem count_bits (lo hi : BitVec 32) (len : Nat) :
    (lo + BitVec.ofNat 32 len <<< 3).toNat + 2 ^ 32 *
      ((if lo + BitVec.ofNat 32 len <<< 3 < lo then hi + 1 else hi) +
        BitVec.ofNat 32 (len >>> 29)).toNat =
      (lo.toNat + 2 ^ 32 * hi.toNat + 8 * len) % 2 ^ 64 := by
  have low := lo.isLt
  have high := hi.isLt
  have sum : (lo + BitVec.ofNat 32 len <<< 3).toNat = (lo.toNat + 8 * len % 2 ^ 32) % 2 ^ 32 := by
    rw [BitVec.toNat_add, BitVec.toNat_shiftLeft, BitVec.toNat_ofNat, Nat.shiftLeft_eq]
    omega
  have one : (hi + 1).toNat = (hi.toNat + 1) % 2 ^ 32 := BitVec.toNat_add ..
  split
  · next carry =>
    rw [BitVec.lt_def, sum] at carry
    rw [sum, BitVec.toNat_add (hi + 1), one, BitVec.toNat_ofNat, Nat.shiftRight_eq_div_pow]
    omega
  · next none =>
    rw [BitVec.lt_def, sum] at none
    rw [sum, BitVec.toNat_add hi, BitVec.toNat_ofNat, Nat.shiftRight_eq_div_pow]
    omega

/-- The bytes of the last block, by the low half of the number of bits. -/
theorem bytes_held (lo : BitVec 32) : (lo >>> 3 &&& 0x3f).toNat = lo.toNat / 8 % 64 := by
  have mask : (0x3f : BitVec 32).toNat = 2 ^ 6 - 1 := rfl
  rw [BitVec.toNat_and, BitVec.toNat_ushiftRight, mask, Nat.and_two_pow_sub_one_eq_mod,
    Nat.shiftRight_eq_div_pow]

/-! ## Padding -/

/-- What follows a message of `len` bytes. -/
def padding (order : Endian) (len : Nat) : List UInt8 :=
  0x80 :: List.replicate ((119 - len % 64) % 64) 0 ++ encode order 8 (8 * len)

/-- A hash function on blocks of 64 bytes. -/
structure Hash (σ : Type) where
  order : Endian
  init : σ
  compress : σ → List UInt8 → σ
  output : σ → List UInt8

namespace Hash

variable {σ : Type} (H : Hash σ)

/-- The state after all whole blocks of a message, and the rest of it. -/
def after (m : List UInt8) : σ × List UInt8 := absorb H.compress 64 H.init m

/-- The digest of a message. -/
def digest (m : List UInt8) : List UInt8 := H.output (H.after (m ++ padding H.order m.length)).1

variable (m : List UInt8)

theorem after_rest_length : (H.after m).2.length = m.length % 64 :=
  absorb_rest_length _ _ (by decide)

theorem after_append (c : List UInt8) :
    H.after (m ++ c) = absorb H.compress 64 (H.after m).1 ((H.after m).2 ++ c) :=
  absorb_append _ _ _ (by decide)

/-- The padding fills the last block. -/
theorem digest_short (h : m.length % 64 < 56) :
    H.digest m = H.output (H.compress (H.after m).1 ((H.after m).2 ++ 0x80 ::
      List.replicate (55 - m.length % 64) 0 ++ encode H.order 8 (8 * m.length))) := by
  have zeros : (119 - m.length % 64) % 64 = 55 - m.length % 64 := by omega
  have rest := H.after_rest_length m
  have block : ((H.after m).2 ++ padding H.order m.length).length = 64 := by
    rw [padding, zeros]
    simp only [List.length_append, List.length_cons, List.length_replicate, encode_length]
    omega
  have single := absorb_block (f := H.compress) (H.after m).1 [] (by decide) block
  rw [List.append_nil, absorb_short (m := []) _ (by decide)] at single
  rw [digest, after_append, single, padding, zeros, ← List.append_assoc]

/-- The padding fills the last block and takes one more. -/
theorem digest_long (h : 56 ≤ m.length % 64) :
    H.digest m = H.output (H.compress (H.compress (H.after m).1
      ((H.after m).2 ++ 0x80 :: List.replicate (63 - m.length % 64) 0))
      (List.replicate 56 0 ++ encode H.order 8 (8 * m.length))) := by
  have zeros : (119 - m.length % 64) % 64 = (63 - m.length % 64) + 56 := by omega
  have rest := H.after_rest_length m
  have split : (H.after m).2 ++ padding H.order m.length =
      ((H.after m).2 ++ 0x80 :: List.replicate (63 - m.length % 64) 0) ++
        ((List.replicate 56 0 ++ encode H.order 8 (8 * m.length)) ++ []) := by
    rw [padding, zeros, List.replicate_add]
    simp only [List.append_assoc, List.cons_append, List.append_nil]
  have first : ((H.after m).2 ++ 0x80 :: List.replicate (63 - m.length % 64) 0).length = 64 := by
    simp only [List.length_append, List.length_cons, List.length_replicate]
    omega
  have second : (List.replicate 56 0 ++ encode H.order 8 (8 * m.length)).length = 64 := by
    rw [List.length_append, List.length_replicate, encode_length]
  rw [digest, after_append, split, absorb_block _ _ (by decide) first,
    absorb_block _ _ (by decide) second, absorb_short (m := []) _ (by decide)]

end Hash

end Lib.BlockHash
