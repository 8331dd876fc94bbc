import Mathlib.Data.Nat.Log
import Mathlib.Data.Nat.Bitwise
import Mathlib.Order.Bounds.Basic

/-!
# Rounding up to a power of two

The highest bit of a number is copied into all the lower ones by shifts whose
length doubles; the next number is a power of two.

* `smear_testBit`: which bits are set after `n` shifts;
* `smear_add_one`: the number behind is `2 ^ Nat.clog 2 (t + 1)`;
* `clog_least`: this is the least power of two that is large enough.
-/

namespace Lib.Smear

/-- `t |= t >> 1`, `t |= t >> 2`, and so on: `n` shifts of doubled length. -/
def smear (t : Nat) : Nat → Nat
  | 0 => t
  | n + 1 => smear t n ||| smear t n >>> 2 ^ n

theorem smear_testBit (t n i : Nat) :
    (smear t n).testBit i = true ↔ ∃ j < 2 ^ n, t.testBit (i + j) = true := by
  induction n generalizing i with
  | zero => simp [smear]
  | succ n ih =>
    rw [smear, Nat.testBit_or, Nat.testBit_shiftRight, Bool.or_eq_true, ih, ih, Nat.pow_succ]
    constructor
    · rintro (⟨j, hj, set⟩ | ⟨j, hj, set⟩)
      · exact ⟨j, by omega, set⟩
      · exact ⟨2 ^ n + j, by omega, by rwa [← Nat.add_assoc, Nat.add_comm i]⟩
    · rintro ⟨j, hj, set⟩
      by_cases near : j < 2 ^ n
      · exact Or.inl ⟨j, near, set⟩
      · refine Or.inr ⟨j - 2 ^ n, by omega, ?_⟩
        rwa [show 2 ^ n + i + (j - 2 ^ n) = i + j by omega]

/-- Enough shifts set all the bits up to the highest one. -/
theorem smear_testBit_iff {t n : Nat} (h : t < 2 ^ 2 ^ n) (i : Nat) :
    (smear t n).testBit i = true ↔ 2 ^ i ≤ t := by
  rw [smear_testBit]
  constructor
  · rintro ⟨j, -, set⟩
    have high : 2 ^ (i + j) ≤ t := Nat.ge_two_pow_of_testBit set
    exact Nat.le_trans (Nat.pow_le_pow_right (by decide) (Nat.le_add_right i j)) high
  · intro low
    obtain ⟨k, hk, set⟩ := Nat.exists_ge_and_testBit_of_ge_two_pow low
    have high : 2 ^ k < 2 ^ 2 ^ n := Nat.lt_of_le_of_lt (Nat.ge_two_pow_of_testBit set) h
    have hlt : k < 2 ^ n := (Nat.pow_lt_pow_iff_right (by decide)).1 high
    exact ⟨k - i, by omega, by rwa [Nat.add_sub_cancel' hk]⟩

theorem smear_add_one {t n : Nat} (h : t < 2 ^ 2 ^ n) :
    smear t n + 1 = 2 ^ Nat.clog 2 (t + 1) := by
  have ones : smear t n = 2 ^ Nat.clog 2 (t + 1) - 1 := by
    apply Nat.eq_of_testBit_eq
    intro i
    rw [Bool.eq_iff_iff, smear_testBit_iff h, Nat.testBit_two_pow_sub_one, decide_eq_true_iff,
      Nat.lt_clog_iff_pow_lt (by decide), Nat.lt_succ_iff]
  rw [ones, Nat.sub_add_cancel (Nat.one_le_two_pow)]

/-- `c` is the least power of two that is not below `n`. -/
def LeastPower (n c : Nat) : Prop := IsLeast { c | (∃ k, c = 2 ^ k) ∧ n ≤ c } c

theorem clog_least (n : Nat) : LeastPower n (2 ^ Nat.clog 2 n) := by
  constructor
  · exact ⟨⟨_, rfl⟩, Nat.le_pow_clog (by decide) n⟩
  · rintro _ ⟨⟨k, rfl⟩, enough⟩
    exact Nat.pow_le_pow_right (by decide) (Nat.clog_le_of_le_pow enough)

/-- A power of two is the least one for everything up to it. -/
theorem LeastPower.le {n c k : Nat} (h : LeastPower n c) (enough : n ≤ 2 ^ k) : c ≤ 2 ^ k :=
  h.2 ⟨⟨k, rfl⟩, enough⟩

end Lib.Smear
