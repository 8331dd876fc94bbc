import Coter.Core.Rand
import Coter.Lib.Orbit

/-!
# The states of the generator

The update of the state is linear over bits, and from any state but zero it runs through
all the others.

* `seed_ne_zero`, `advance_ne_zero`: the state is never zero;
* `advance_injective`: no two states are merged;
* `period`: the update comes back after `2 ^ 128 - 1` steps and not before;
* `visits`: from any state but zero to any other;
* `state_never_lost`: no seed leads to zero, and the update is a bijection.
-/

namespace Coter.Rand

open Lib.Orbit Function

/-! ## The states as vectors -/

instance : Add Random := ⟨fun a b => ⟨a.s0 ^^^ b.s0, a.s1 ^^^ b.s1⟩⟩

instance : Zero Random := ⟨⟨0, 0⟩⟩

instance : Neg Random := ⟨id⟩

@[simp] theorem s0_add (a b : Random) : (a + b).s0 = a.s0 ^^^ b.s0 := rfl

@[simp] theorem s1_add (a b : Random) : (a + b).s1 = a.s1 ^^^ b.s1 := rfl

@[simp] theorem s0_zero : (0 : Random).s0 = 0 := rfl

@[simp] theorem s1_zero : (0 : Random).s1 = 0 := rfl

theorem twice (a : Random) : a + a = 0 := by
  ext1 <;> simp

instance : AddCommGroup Random where
  add_assoc a b c := by ext1 <;> simp [BitVec.xor_assoc]
  zero_add a := by ext1 <;> simp
  add_zero a := by ext1 <;> simp
  add_comm a b := by ext1 <;> simp [BitVec.xor_comm]
  neg_add_cancel := twice
  nsmul := nsmulRec
  zsmul := zsmulRec

/-- The states are pairs of words. -/
def words : Random ≃ Fin (2 ^ 64) × Fin (2 ^ 64) where
  toFun r := (r.s0.toFin, r.s1.toFin)
  invFun p := ⟨⟨p.1⟩, ⟨p.2⟩⟩
  left_inv _ := rfl
  right_inv _ := rfl

instance : Finite Random := Finite.of_equiv _ words.symm

theorem card_random : Nat.card Random = 2 ^ 128 := by
  rw [Nat.card_congr words, Nat.card_prod, Nat.card_fin]
  rfl

/-! ## The update -/

/-- The update of the state. -/
def advance (self : Random) : Random := (random_u64 self).2

theorem rotl_xor (x y : BitVec 64) {k : Nat} (hk : k ≤ 64) :
    random_rotl (x ^^^ y) k = random_rotl x k ^^^ random_rotl y k := by
  unfold random_rotl
  ext i hi
  by_cases low : i < k
  · simp [low]
  · simp [low, show 64 ≤ 64 - k + i by omega]

theorem advance_add (a b : Random) : advance (a + b) = advance a + advance b := by
  have mix (x y z u v w : BitVec 64) : (x ^^^ u) ^^^ (y ^^^ v) ^^^ (z ^^^ w) =
      (x ^^^ y ^^^ z) ^^^ (u ^^^ v ^^^ w) := by ac_rfl
  have swap (x y u v : BitVec 64) : (x ^^^ u) ^^^ (y ^^^ v) = (x ^^^ y) ^^^ (u ^^^ v) := by ac_rfl
  ext1
  · change random_rotl (a.s0 ^^^ b.s0) 49 ^^^ ((a.s1 ^^^ b.s1) ^^^ (a.s0 ^^^ b.s0)) ^^^
        ((a.s1 ^^^ b.s1) ^^^ (a.s0 ^^^ b.s0)) <<< 21 = _
    rw [swap, rotl_xor _ _ (by decide), BitVec.shiftLeft_xor_distrib, mix]
    rfl
  · change random_rotl ((a.s1 ^^^ b.s1) ^^^ (a.s0 ^^^ b.s0)) 28 = _
    rw [swap, rotl_xor _ _ (by decide)]
    rfl

/-- The update as a linear map. -/
def update : Random →+ Random := AddMonoidHom.mk' advance advance_add

/-! ## The period -/

/-- A rotation leaves no bit behind. -/
theorem rotl_injective {x y : BitVec 64} {k : Nat} (hk : k < 64)
    (h : random_rotl x k = random_rotl y k) : x = y := by
  unfold random_rotl at h
  ext i hi
  by_cases high : i + k < 64
  · have bit := congrArg (BitVec.getLsbD · (i + k)) h
    simpa [high, BitVec.getLsbD_eq_getElem hi, show 64 ≤ 64 - k + (i + k) by omega] using bit
  · have bit := congrArg (BitVec.getLsbD · (i + k - 64)) h
    simpa [BitVec.getLsbD_eq_getElem hi, show i + k - 64 < k by omega,
      show i + k - 64 < 64 by omega, show 64 - k + (i + k - 64) = i by omega] using bit

theorem advance_injective : Injective advance := by
  intro a b h
  have second : a.s1 ^^^ a.s0 = b.s1 ^^^ b.s0 :=
    rotl_injective (by decide) (congrArg Random.s1 h)
  have first : random_rotl a.s0 49 ^^^ (a.s1 ^^^ a.s0) ^^^ (a.s1 ^^^ a.s0) <<< 21 =
      random_rotl b.s0 49 ^^^ (b.s1 ^^^ b.s0) ^^^ (b.s1 ^^^ b.s0) <<< 21 := congrArg Random.s0 h
  rw [second, BitVec.xor_left_inj, BitVec.xor_left_inj] at first
  have s0 := rotl_injective (by decide) first
  rw [s0, BitVec.xor_left_inj] at second
  ext1
  · exact s0
  · exact second

/-- The characteristic polynomial of the update. -/
def polynomial : Nat := 0x10031bcf2f855d6e58dae70779760b081

/-- A state that the update leads to every other from. -/
def unit : Random := ⟨1, 0⟩

theorem polynomial_root : eval update unit 129 polynomial = 0 := by
  decide +kernel

theorem jump (e : Nat) (he : e < 2 ^ 128) :
    advance^[e] unit = eval update unit 128 (power polynomial 128 128 e) :=
  (iterate_eq_eval twice (by decide) (by decide) (by decide) polynomial_root he).2.symm

theorem comes_back : advance^[2 ^ 128 - 1] unit = unit := by
  rw [jump _ (by decide)]
  decide +kernel

/-- The prime factors of `2 ^ 128 - 1`. -/
def factors : List Nat := [3, 5, 17, 257, 641, 65537, 274177, 6700417, 67280421310721]

theorem product : 2 ^ 128 - 1 = factors.prod := by decide +kernel

theorem prime_last : Nat.Prime 67280421310721 := by
  have split : 67280421310721 - 1 = [2, 2, 2, 2, 2, 2, 2, 2, 5, 47, 373, 2998279].prod := by
    norm_num
  have parts : ∀ q ∈ [2, 2, 2, 2, 2, 2, 2, 2, 5, 47, 373, 2998279], Nat.Prime q := by
    norm_num
  have roots : ∀ q ∈ [2, 2, 2, 2, 2, 2, 2, 2, 5, 47, 373, 2998279],
      (3 : ZMod 67280421310721) ^ (67280421310720 / q) ≠ 1 := by
    simp only [List.forall_mem_cons, List.not_mem_nil, false_imp_iff, implies_true, and_true]
    norm_num only
    reduce_mod_char
    decide
  refine lucas_primality 67280421310721 (3 : ZMod 67280421310721) ?_ fun q prime divides => ?_
  · reduce_mod_char
  · rw [split, prime.prime.dvd_prod_iff] at divides
    obtain ⟨r, hr, divides⟩ := divides
    obtain rfl := (Nat.prime_dvd_prime_iff_eq prime (parts r hr)).1 divides
    exact roots q hr

theorem factors_prime : ∀ q ∈ factors, Nat.Prime q := by
  unfold factors
  simp only [List.forall_mem_cons, List.not_mem_nil, false_imp_iff, implies_true, and_true]
  refine ⟨?_, ?_, ?_, ?_, ?_, ?_, ?_, ?_, prime_last⟩ <;> norm_num

theorem apart : ∀ q ∈ factors, advance^[(2 ^ 128 - 1) / q] unit ≠ unit := by
  have jumps : ∀ q ∈ factors, (2 ^ 128 - 1) / q < 2 ^ 128 ∧
      eval update unit 128 (power polynomial 128 128 ((2 ^ 128 - 1) / q)) ≠ unit := by
    decide +kernel
  intro q hq
  rw [jump _ (jumps q hq).1]
  exact (jumps q hq).2

/-- **The period.** From `unit`, the update comes back after `2 ^ 128 - 1` steps and not
before. -/
theorem period : minimalPeriod advance unit = 2 ^ 128 - 1 := by
  refine minimalPeriod_eq_of_primes comes_back fun q prime divides => ?_
  rw [product, prime.prime.dvd_prod_iff] at divides
  obtain ⟨r, hr, divides⟩ := divides
  obtain rfl := (Nat.prime_dvd_prime_iff_eq prime (factors_prime r hr)).1 divides
  exact apart q hr

/-- From any state but zero to any other. -/
theorem visits {x y : Random} (hx : x ≠ 0) (hy : y ≠ 0) : ∃ n, advance^[n] x = y :=
  reaches (map_zero update) advance_injective (by decide : unit ≠ 0)
    (by rw [period, card_random]; rfl) hx hy

/-! ## Never zero, never merged -/

theorem seed_ne_zero (seed : BitVec 64) : random_seed seed ≠ 0 := by
  unfold random_seed
  dsimp only
  split
  · intro h
    have word : (0x9E3779B97F4A7C15 : BitVec 64) = 0 := congrArg Random.s0 h
    exact absurd word (by decide)
  · next other =>
    intro h
    exact other ⟨congrArg Random.s0 h, congrArg Random.s1 h⟩

theorem advance_ne_zero {r : Random} (h : r ≠ 0) (n : Nat) : advance^[n] r ≠ 0 := fun zero =>
  h (advance_injective.iterate n (zero.trans (iterate_fixed (map_zero update) n).symm))

theorem advance_bijective : Bijective advance :=
  Finite.injective_iff_bijective.1 advance_injective

/-- **State never lost.** Whatever the seed and however many numbers have been drawn, not
both words of the state are zero. The update is a bijection on the states, of which there
are `2 ^ 128`. -/
theorem state_never_lost :
    (∀ (seed : BitVec 64) (n : Nat), advance^[n] (random_seed seed) ≠ ⟨0, 0⟩) ∧
      Bijective advance ∧ Nat.card Random = 2 ^ 128 := by
  refine ⟨?_, advance_bijective, card_random⟩
  intro seed n
  exact advance_ne_zero (seed_ne_zero seed) n

end Coter.Rand
