import Mathlib

/-!
# Orbits of a map that is linear over bits

Polynomials over the field of two elements are numbers, bit `i` the coefficient of degree
`i`, and are evaluated at a linear map, on a vector.

* `minimalPeriod_eq_of_primes`: a period that no prime divides down is the least one;
* `reaches`: a map whose period on one vector is the number of all vectors but a fixed one
  leads from each of them to each other;
* `eval_mul`: products of polynomials modulo one that vanishes on the vector;
* `iterate_eq_eval`: a power of the map by repeated squaring of its polynomial.
-/

namespace Lib.Orbit

open Function

/-! ## Periods -/

section

variable {V : Type} {T : V → V} {e : V}

theorem minimalPeriod_eq_of_primes {N : Nat} (back : T^[N] e = e)
    (apart : ∀ q : Nat, q.Prime → q ∣ N → T^[N / q] e ≠ e) : minimalPeriod T e = N := by
  obtain ⟨m, hm⟩ := IsPeriodicPt.minimalPeriod_dvd (show IsPeriodicPt T N e from back)
  by_contra proper
  have other : m ≠ 1 := by
    rintro rfl
    exact proper (by omega)
  obtain ⟨q, prime, k, rfl⟩ := Nat.exists_prime_and_dvd other
  have split : N = q * (minimalPeriod T e * k) := by rw [hm, Nat.mul_left_comm]
  refine apart q prime ⟨_, split⟩ ?_
  rw [split, Nat.mul_div_cancel_left _ prime.pos]
  exact (isPeriodicPt_minimalPeriod T e).mul_const k

/-- From each vector but the fixed one to each other. -/
theorem reaches [Finite V] {z x y : V} (fixed : T z = z) (injective : Injective T) (he : e ≠ z)
    (full : minimalPeriod T e + 1 = Nat.card V) (hx : x ≠ z) (hy : y ≠ z) :
    ∃ n, T^[n] x = y := by
  have apart (i : Nat) : T^[i] e ≠ z := fun h =>
    he (injective.iterate i (h.trans (iterate_fixed fixed i).symm))
  let orbit : Fin (minimalPeriod T e) → {v : V // v ≠ z} := fun i => ⟨T^[i] e, apart i⟩
  have one_to_one : Injective orbit := fun i j h =>
    Fin.ext (iterate_injOn_Iio_minimalPeriod i.isLt j.isLt (congrArg Subtype.val h))
  have count : Nat.card {v : V // v ≠ z} = minimalPeriod T e := by
    have total := Set.ncard_add_ncard_compl ({z} : Set V)
    rw [Set.ncard_singleton] at total
    have rest : Nat.card {v : V // v ≠ z} = Set.ncard ({z} : Set V)ᶜ := rfl
    omega
  have onto : Surjective orbit :=
    ((Nat.bijective_iff_injective_and_card orbit).2 ⟨one_to_one, by rw [count, Nat.card_fin]⟩).2
  obtain ⟨i, hi⟩ := onto ⟨x, hx⟩
  obtain ⟨j, hj⟩ := onto ⟨y, hy⟩
  refine ⟨j + (minimalPeriod T e - i), ?_⟩
  rw [← show T^[i] e = x from congrArg Subtype.val hi, ← iterate_add_apply, Nat.add_assoc,
    Nat.sub_add_cancel i.isLt.le, iterate_add_apply, iterate_minimalPeriod]
  exact congrArg Subtype.val hj

end

/-! ## Polynomials -/

section

variable {V : Type} [AddCommGroup V]

/-- The first `n` coefficients of `f` at the map `T`, on the vector `v`. -/
def eval (T : V →+ V) (v : V) : Nat → Nat → V
  | 0, _ => 0
  | n + 1, f => (if f % 2 = 1 then v else 0) + T (eval T v n (f / 2))

/-- `X` times `a`, modulo the polynomial `p` of degree `n`. -/
def timesX (p n a : Nat) : Nat := if 2 ^ n ≤ 2 * a then (2 * a) ^^^ p else 2 * a

/-- `acc` and the product of `g` with the first `k` coefficients of `f`. -/
def mul (p n : Nat) : Nat → Nat → Nat → Nat → Nat
  | 0, _, _, acc => acc
  | k + 1, f, g, acc => mul p n k (f / 2) (timesX p n g) (if f % 2 = 1 then acc ^^^ g else acc)

/-- `X` to the exponent `e` of `k` bits. -/
def power (p n : Nat) : Nat → Nat → Nat
  | 0, _ => 1
  | k + 1, e =>
    let half := power p n k (e / 2)
    let square := mul p n n half half 0
    if e % 2 = 1 then timesX p n square else square

variable {T : V →+ V} {v : V}

@[simp] theorem eval_zero (n : Nat) : eval T v n 0 = 0 := by
  induction n with
  | zero => rfl
  | succ n ih => simp [eval, ih]

theorem eval_double (n f : Nat) : eval T v (n + 1) (2 * f) = T (eval T v n f) := by
  rw [eval, if_neg (by omega), zero_add, Nat.mul_div_cancel_left _ (by decide)]

theorem eval_succ {n f : Nat} (h : f < 2 ^ n) : eval T v (n + 1) f = eval T v n f := by
  induction n generalizing f with
  | zero =>
    obtain rfl : f = 0 := by omega
    rw [eval_zero, eval_zero]
  | succ n ih => rw [eval, ih (by omega), eval]

theorem eval_map (n f : Nat) : eval T (T v) n f = T (eval T v n f) := by
  induction n generalizing f with
  | zero => exact (map_zero T).symm
  | succ n ih =>
    rw [eval, eval, map_add, ih]
    split <;> simp

theorem eval_iterate (k n f : Nat) : eval T (T^[k] v) n f = T^[k] (eval T v n f) := by
  induction k with
  | zero => rfl
  | succ k ih => rw [iterate_succ_apply', iterate_succ_apply', eval_map, ih]

theorem timesX_lt {p n a : Nat} (hp : 2 ^ n ≤ p) (hp' : p < 2 ^ (n + 1)) (ha : a < 2 ^ n) :
    timesX p n a < 2 ^ n := by
  have power : 2 ^ (n + 1) = 2 * 2 ^ n := Nat.pow_succ'
  unfold timesX
  split
  · next above =>
    -- The leading coefficients cancel.
    have top (b : Nat) (low : 2 ^ n ≤ b) (high : b < 2 ^ (n + 1)) : b >>> n = 1 := by
      rw [Nat.shiftRight_eq_div_pow]
      exact Nat.div_eq_of_lt_le (by omega) (by omega)
    have cancel : (2 * a ^^^ p) >>> n = 0 := by
      rw [Nat.shiftRight_xor_distrib, top _ above (by omega), top _ hp hp', Nat.xor_self]
    rw [Nat.shiftRight_eq_div_pow] at cancel
    exact (Nat.div_eq_zero_iff_lt (Nat.two_pow_pos n)).1 cancel
  · omega

section

variable (twice : ∀ u : V, u + u = 0)

include twice

theorem eval_xor (n f g : Nat) : eval T v n (f ^^^ g) = eval T v n f + eval T v n g := by
  induction n generalizing f g with
  | zero => exact (add_zero 0).symm
  | succ n ih =>
    have head : (if (f ^^^ g) % 2 = 1 then v else 0) =
        (if f % 2 = 1 then v else 0) + (if g % 2 = 1 then v else 0) := by
      rw [Nat.xor_mod_two_eq]
      rcases Nat.mod_two_eq_zero_or_one f with hf | hf <;>
        rcases Nat.mod_two_eq_zero_or_one g with hg | hg <;>
        simp [Nat.add_mod, hf, hg, twice]
    rw [eval, eval, eval, head, Nat.xor_div_two, ih, map_add]
    abel

variable {p n : Nat} (low : 2 ^ n ≤ p) (high : p < 2 ^ (n + 1)) (root : eval T v (n + 1) p = 0)

include low high root

theorem eval_timesX {a : Nat} (ha : a < 2 ^ n) : eval T v n (timesX p n a) = T (eval T v n a) := by
  rw [← eval_succ (timesX_lt low high ha), ← eval_double]
  unfold timesX
  split
  · rw [eval_xor twice, root, add_zero]
  · rfl

theorem eval_mul {k f g : Nat} (acc : Nat) (hg : g < 2 ^ n) :
    eval T v n (mul p n k f g acc) = eval T v n acc + eval T (eval T v n g) k f := by
  induction k generalizing f g acc with
  | zero => exact (add_zero _).symm
  | succ k ih =>
    rw [mul, ih _ (timesX_lt low high hg), eval_timesX twice low high root hg, eval, eval_map,
      ← add_assoc]
    split
    · rw [eval_xor twice]
    · rw [add_zero]

end

theorem mul_lt {p n k f g acc : Nat} (low : 2 ^ n ≤ p) (high : p < 2 ^ (n + 1)) (hg : g < 2 ^ n)
    (hacc : acc < 2 ^ n) : mul p n k f g acc < 2 ^ n := by
  induction k generalizing f g acc with
  | zero => exact hacc
  | succ k ih =>
    rw [mul]
    refine ih (timesX_lt low high hg) ?_
    split
    · exact Nat.xor_lt_two_pow hacc hg
    · exact hacc

/-- **Jumping.** A power of the map is the evaluation of a polynomial. -/
theorem iterate_eq_eval (twice : ∀ u : V, u + u = 0) {p n k e : Nat} (hn : 0 < n)
    (low : 2 ^ n ≤ p) (high : p < 2 ^ (n + 1)) (root : eval T v (n + 1) p = 0) (he : e < 2 ^ k) :
    power p n k e < 2 ^ n ∧ eval T v n (power p n k e) = T^[e] v := by
  induction k generalizing e with
  | zero =>
    obtain rfl : e = 0 := by omega
    obtain ⟨m, rfl⟩ := Nat.exists_eq_add_one.2 hn
    refine ⟨Nat.one_lt_two_pow (by omega), ?_⟩
    rw [power, eval, if_pos rfl, eval_zero, map_zero, add_zero]
    rfl
  | succ k ih =>
    obtain ⟨small, half⟩ := ih (show e / 2 < 2 ^ k by omega)
    have small' := mul_lt (k := n) (f := power p n k (e / 2)) low high small (Nat.two_pow_pos n)
    have square : eval T v n (mul p n n (power p n k (e / 2)) (power p n k (e / 2)) 0) =
        T^[e / 2 + e / 2] v := by
      rw [eval_mul twice low high root 0 small, half, eval_iterate, half, eval_zero, zero_add,
        iterate_add_apply]
    rw [power]
    split
    · refine ⟨timesX_lt low high small', ?_⟩
      rw [eval_timesX twice low high root small', square, ← iterate_succ_apply' ⇑T]
      congr 1
      omega
    · refine ⟨small', square.trans ?_⟩
      congr 1
      omega

end

end Lib.Orbit
