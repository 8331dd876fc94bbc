import Mathlib

/-!
# Mixing a word

The steps of which hash functions and generators are made, none of which loses anything.

* `xorshift_injective`: a word and the same word shifted;
* `mul_injective`: a factor that has an inverse;
* `xor_shiftLeft`: bits that are put above others.
-/

namespace Lib.Mixing

open Function

variable {w : Nat}

/-- A word and the same word shifted to the right. -/
theorem xorshift_injective {r : Nat} (hr : 0 < r) :
    Injective fun x : BitVec w => x ^^^ x >>> r := by
  intro x y h
  apply BitVec.eq_of_getLsbD_eq
  intro i hi
  -- from the highest bits down: bit `i` comes from bit `i + r`
  induction hk : w - i using Nat.strong_induction_on generalizing i with
  | _ k ih =>
    have here := congrArg (fun v : BitVec w => v.getLsbD i) h
    simp only [BitVec.getLsbD_xor, BitVec.getLsbD_ushiftRight] at here
    have above : x.getLsbD (r + i) = y.getLsbD (r + i) := by
      by_cases inside : r + i < w
      · exact ih (w - (r + i)) (by omega) (r + i) inside rfl
      · rw [BitVec.getLsbD_of_ge x _ (by omega), BitVec.getLsbD_of_ge y _ (by omega)]
    rw [above] at here
    exact Bool.xor_left_inj.1 here

theorem mul_injective {m n : BitVec w} (h : m * n = 1#w) : Injective fun x : BitVec w => x * m := by
  intro x y same
  have undone := congrArg (· * n) same
  simpa only [BitVec.mul_assoc, h, BitVec.mul_one] using undone

theorem xor_injective (k : BitVec w) : Injective fun x : BitVec w => x ^^^ k := by
  intro x y same
  have undone := congrArg (· ^^^ k) same
  simpa only [BitVec.xor_assoc, BitVec.xor_self, BitVec.xor_zero] using undone

/-- Bits that are put above the others. -/
theorem xor_shiftLeft {a b s : Nat} (h : a < 2 ^ s) :
    BitVec.ofNat w a ^^^ BitVec.ofNat w b <<< s = BitVec.ofNat w (a + 2 ^ s * b) := by
  apply BitVec.eq_of_getLsbD_eq
  intro i hi
  simp only [BitVec.getLsbD_xor, BitVec.getLsbD_shiftLeft, BitVec.getLsbD_ofNat, hi, decide_true,
    Bool.true_and]
  rw [Nat.add_comm, Nat.testBit_two_pow_mul_add b h]
  by_cases low : i < s
  · simp [low]
  · have small : a < 2 ^ i := h.trans_le (Nat.pow_le_pow_right (by decide) (Nat.not_lt.1 low))
    have inside : i - s < w := by omega
    simp [low, inside, Nat.testBit_lt_two_pow small]

end Lib.Mixing
