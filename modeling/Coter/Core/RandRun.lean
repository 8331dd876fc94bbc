import Coter.Core.RandOrbit
import Coter.Lib.Counting

/-!
# Samples of a range

* `range_loop_eq`: the rejection loop returns what the first sample that is not rejected gives;
* `range_loop_returns`: it comes to such a sample, since the generator runs through every state;
* `accept_range`, `accept_count`: an accepted sample gives a value of the range, and each
  value comes from the same number of samples;
* `random_i64_from_u64_eq`, `toInt_offset`: the way to signed numbers and back;
* `range_uniform`: both functions return values of their range, each as often.
-/

namespace Coter.Rand

open Function

/-! ## The threshold -/

theorem thresholdOf_toNat {range : BitVec 64} (h : 0 < range.toNat) :
    (thresholdOf range).toNat = 2 ^ 64 % range.toNat := by
  have small := range.isLt
  unfold thresholdOf
  rw [BitVec.toNat_umod, BitVec.toNat_sub, show (0 : BitVec 64).toNat = 0 from rfl, Nat.add_zero,
    Nat.mod_eq_of_lt (a := 2 ^ 64 - range.toNat) (by omega), ← Nat.mod_eq_sub_mod small.le]

/-- Half of all the samples are never rejected. -/
theorem thresholdOf_lt {range : BitVec 64} (h : 0 < range.toNat) :
    (thresholdOf range).toNat < 2 ^ 63 := by
  have small := range.isLt
  have below := Nat.mod_lt (2 ^ 64) h
  have parts := Nat.mod_add_div (2 ^ 64) range.toNat
  have one : range.toNat * 1 ≤ range.toNat * (2 ^ 64 / range.toNat) :=
    Nat.mul_le_mul_left _ (Nat.div_pos small.le h)
  rw [thresholdOf_toNat h]
  omega

/-! ## The loop -/

/-- Of the samples that the generator draws from `r`, the one after `steps` others is the first
that is not rejected, and it gives `value`. -/
structure FirstAccepted {α : Type} (pick : BitVec 64 → Option α) (r : Random) (steps : Nat)
    (value : α) : Prop where
  rejected : ∀ k < steps, pick (random_u64 (advance^[k] r)).1 = none
  accepted : pick (random_u64 (advance^[steps] r)).1 = some value

theorem FirstAccepted.after {α : Type} {pick : BitVec 64 → Option α} {r : Random} {steps : Nat}
    {value : α} (h : FirstAccepted pick (advance r) steps value)
    (first : pick (random_u64 r).1 = none) :
    FirstAccepted pick r (steps + 1) value where
  rejected k hk := by
    cases k with
    | zero => exact first
    | succ k => exact h.rejected k (by omega)
  accepted := h.accepted

section

variable {min range threshold : BitVec 64}

/-- The loop returns what the first sample that is not rejected gives, and leaves the state after
that sample. -/
theorem range_loop_eq {steps : Nat} {value : BitVec 64} {r : Random}
    (h : FirstAccepted (accept min range threshold) r steps value) {more : Nat}
    (enough : steps < more) :
    range_loop min range threshold more r = .ok (value, advance^[steps + 1] r) := by
  obtain ⟨rest, rfl⟩ := Nat.exists_eq_add_one.2 (show 0 < more by omega)
  induction steps generalizing r rest with
  | zero =>
    have accepted : accept min range threshold (random_u64 r).1 = some value := h.accepted
    simp only [range_loop, accepted]
    rfl
  | succ steps ih =>
    have rejected : accept min range threshold (random_u64 r).1 = none := h.rejected 0 (by omega)
    obtain ⟨rest, rfl⟩ := Nat.exists_eq_add_one.2 (show 0 < rest by omega)
    simp only [range_loop, rejected]
    exact ih (r := advance r) ⟨fun k hk => h.rejected (k + 1) (by omega), h.accepted⟩ rest
      (by omega)

/-- A sample that is not rejected comes after finitely many that are. -/
theorem first_accepted (n : Nat) {r : Random}
    (h : (accept min range threshold (random_u64 (advance^[n] r)).1).isSome) :
    ∃ steps value, FirstAccepted (accept min range threshold) r steps value := by
  induction n generalizing r with
  | zero =>
    obtain ⟨value, first⟩ := Option.isSome_iff_exists.1 h
    exact ⟨0, value, fun k hk => absurd hk (Nat.not_lt_zero k), first⟩
  | succ n ih =>
    cases first : accept min range threshold (random_u64 r).1 with
    | some value => exact ⟨0, value, fun k hk => absurd hk (Nat.not_lt_zero k), first⟩
    | none =>
      obtain ⟨steps, value, later⟩ := ih (r := advance r) h
      exact ⟨steps + 1, value, later.after first⟩

/-- The rejection loop comes to a sample that it does not reject. -/
theorem range_loop_returns (low : threshold.toNat < 2 ^ 63) {r : Random} (h : r ≠ 0) :
    ∃ steps value, FirstAccepted (accept min range threshold) r steps value := by
  -- A state whose sample is `2 ^ 63`.
  obtain ⟨n, hn⟩ := visits h (by decide : (⟨0, 1 <<< 46⟩ : Random) ≠ 0)
  refine first_accepted n ?_
  have large : (random_u64 ⟨0, 1 <<< 46⟩).1 = 0x8000000000000000 := by decide
  have accepted : threshold ≤ (0x8000000000000000 : BitVec 64) := BitVec.le_def.2 low.le
  rw [hn, large, accept, if_pos accepted]
  rfl

end

/-! ## Samples -/

section

variable {min max : BitVec 64} (ordered : min < max)

include ordered

theorem range_toNat : (max - min).toNat = max.toNat - min.toNat ∧ 0 < (max - min).toNat := by
  have less : min.toNat < max.toNat := ordered
  have value := BitVec.toNat_sub_of_le (BitVec.le_def.2 less.le)
  exact ⟨value, by omega⟩

theorem value_toNat (sample : BitVec 64) : (min + sample % (max - min)).toNat =
    min.toNat + sample.toNat % (max.toNat - min.toNat) := by
  have less : min.toNat < max.toNat := ordered
  have small := max.isLt
  have below := Nat.mod_lt sample.toNat (show 0 < max.toNat - min.toNat by omega)
  rw [BitVec.toNat_add, BitVec.toNat_umod, (range_toNat ordered).1, Nat.mod_eq_of_lt (by omega)]

/-- An accepted sample gives a value of the range. -/
theorem accept_range {threshold sample value : BitVec 64}
    (h : accept min (max - min) threshold sample = some value) : min ≤ value ∧ value < max := by
  have less : min.toNat < max.toNat := ordered
  have below := Nat.mod_lt sample.toNat (show 0 < max.toNat - min.toNat by omega)
  unfold accept at h
  split at h
  · obtain rfl := Option.some.inj h
    rw [BitVec.le_def, BitVec.lt_def, value_toNat ordered]
    omega
  · cases h

/-- Each value comes from the same number of samples. -/
theorem accept_count {value : BitVec 64} (low : min ≤ value) (high : value < max) :
    Set.ncard {sample | accept min (max - min) (thresholdOf (max - min)) sample = some value} =
      2 ^ 64 / (max - min).toNat := by
  have low' : min.toNat ≤ value.toNat := low
  have high' : value.toNat < max.toNat := high
  obtain ⟨range, positive⟩ := range_toNat ordered
  have total := Nat.mod_add_div (2 ^ 64) (max - min).toNat
  have stretch := Lib.Counting.ncard_remainder (d := (max - min).toNat)
    (w := value.toNat - min.toNat) (2 ^ 64 % (max - min).toNat) (2 ^ 64 / (max - min).toNat)
    (by omega)
  rw [total] at stretch
  rw [← Set.ncard_image_of_injective _ (BitVec.toNat_injective (n := 64))]
  refine (congrArg Set.ncard ?_).trans stretch
  ext s
  constructor
  · rintro ⟨sample, h, rfl⟩
    change accept _ _ _ _ = _ at h
    unfold accept at h
    split at h
    · next above =>
      have above' : (thresholdOf (max - min)).toNat ≤ sample.toNat := above
      rw [thresholdOf_toNat positive] at above'
      have same := congrArg BitVec.toNat (Option.some.inj h)
      rw [value_toNat ordered, ← range] at same
      exact ⟨above', sample.isLt, by omega⟩
    · cases h
  · rintro ⟨above, small, same⟩
    have number : (BitVec.ofNat 64 s).toNat = s := Nat.mod_eq_of_lt small
    refine ⟨BitVec.ofNat 64 s, ?_, number⟩
    have above' : thresholdOf (max - min) ≤ BitVec.ofNat 64 s := by
      rw [BitVec.le_def, thresholdOf_toNat positive, number]
      exact above
    change accept _ _ _ _ = _
    rw [accept, if_pos above']
    refine congrArg some (BitVec.eq_of_toNat_eq ?_)
    rw [value_toNat ordered, number, ← range, same]
    omega

end

/-! ## Signed numbers -/

theorem checked_ok {n : Int} (low : -(2 ^ 63) ≤ n) (high : n < 2 ^ 63) : checked n = .ok n :=
  if_pos ⟨low, high⟩

theorem le_max_iff (value : BitVec 64) : value ≤ 0x7FFFFFFFFFFFFFFF ↔ value.toNat < 2 ^ 63 := by
  have limit : (0x7FFFFFFFFFFFFFFF : BitVec 64).toNat = 2 ^ 63 - 1 := by decide
  rw [BitVec.le_def, limit]
  omega

/-- No signed operation on the way overflows. -/
theorem random_i64_from_u64_eq (value : BitVec 64) :
    random_i64_from_u64 value = .ok value.toInt := by
  have small := value.isLt
  have complement : (~~~value).toNat = 2 ^ 64 - 1 - value.toNat := BitVec.toNat_not
  rw [BitVec.toInt_eq_toNat_cond, random_i64_from_u64]
  by_cases positive : value.toNat < 2 ^ 63
  · rw [if_pos ((le_max_iff value).2 positive), if_pos (by omega), checked_ok (by omega) (by omega)]
  · rw [if_neg (mt (le_max_iff value).1 positive), if_neg (by omega), complement,
      checked_ok (by omega) (by omega)]
    simp only [bind, Except.bind]
    rw [checked_ok (by omega) (by omega)]
    dsimp only
    rw [checked_ok (by omega) (by omega)]
    refine congrArg Except.ok ?_
    omega

/-- Flipping the highest bit moves the signed numbers up. -/
theorem toInt_offset (value : BitVec 64) :
    (value ^^^ offset).toInt = (value.toNat : Int) - 2 ^ 63 := by
  have small := value.isLt
  have high : (value ^^^ offset).toNat / 2 ^ 63 = value.toNat / 2 ^ 63 ^^^ 1 := by
    rw [BitVec.toNat_xor, Nat.xor_div_two_pow]
    rfl
  have low : (value ^^^ offset).toNat % 2 ^ 63 = value.toNat % 2 ^ 63 := by
    rw [BitVec.toNat_xor, Nat.xor_mod_two_pow]
    exact Nat.xor_zero _
  rw [BitVec.toInt_eq_toNat_cond]
  obtain half | half : value.toNat / 2 ^ 63 = 0 ∨ value.toNat / 2 ^ 63 = 1 := by omega
  · rw [half] at high
    have high' : (value ^^^ offset).toNat / 2 ^ 63 = 1 := high
    rw [if_neg (by omega)]
    omega
  · rw [half] at high
    have high' : (value ^^^ offset).toNat / 2 ^ 63 = 0 := high
    rw [if_pos (by omega)]
    omega

/-- The unsigned number in the place of a signed one. -/
def place (n : Int) : BitVec 64 := BitVec.ofInt 64 n ^^^ offset

theorem place_toNat {n : Int} (low : -(2 ^ 63) ≤ n) (high : n < 2 ^ 63) :
    ((place n).toNat : Int) = n + 2 ^ 63 := by
  have back := toInt_offset (place n)
  have self : place n ^^^ offset = BitVec.ofInt 64 n := by
    rw [place, BitVec.xor_assoc, BitVec.xor_self, BitVec.xor_zero]
  rw [self, BitVec.toInt_ofInt_eq_self (by decide) (by omega) (by omega)] at back
  omega

/-- What `ct_random_i64_range` returns on a sample, unless it goes on. -/
def signed (min max : Int) (sample : BitVec 64) : Option (Except Stop Int) :=
  (accept (place min) (place max - place min) (thresholdOf (place max - place min)) sample).map
    fun value => random_i64_from_u64 (value ^^^ offset)

section

variable {min max : Int} (low : -(2 ^ 63) ≤ min) (high : max < 2 ^ 63) (ordered : min < max)

include low high ordered

theorem place_ordered : place min < place max := by
  have first := place_toNat low (by omega)
  have second := place_toNat (n := max) (by omega) high
  rw [BitVec.lt_def]
  omega

theorem signed_count {value : Int} (above : min ≤ value) (below : value < max) :
    Set.ncard {sample | signed min max sample = some (.ok value)} =
      2 ^ 64 / (max - min).toNat := by
  have first := place_toNat low (by omega)
  have second := place_toNat (n := max) (by omega) high
  have third := place_toNat (n := value) (by omega) (by omega)
  have places := place_ordered low high ordered
  have same (u : BitVec 64) : random_i64_from_u64 (u ^^^ offset) = .ok value ↔ u = place value := by
    rw [random_i64_from_u64_eq, toInt_offset]
    constructor
    · intro h
      have number := Except.ok.inj h
      exact BitVec.eq_of_toNat_eq (by omega)
    · rintro rfl
      exact congrArg Except.ok (by omega)
  have samples : {sample | signed min max sample = some (.ok value)} =
      {sample | accept (place min) (place max - place min) (thresholdOf (place max - place min))
        sample = some (place value)} := by
    ext sample
    simp only [signed, Set.mem_ofPred_eq, Option.map_eq_some_iff, same, exists_eq_right]
  have range : (place max - place min).toNat = (max - min).toNat := by
    rw [(range_toNat places).1]
    omega
  rw [samples, accept_count places (by rw [BitVec.le_def]; omega) (by rw [BitVec.lt_def]; omega),
    range]

end

/-! ## Both functions -/

/-- **Samples of a range.** From every state that a seeded generator can be in, the functions
return what the first sample that is not rejected gives, a value of the range, and leave the state
after that sample; and of the samples that are not rejected, each value comes from the same
number. -/
theorem range_uniform :
    (∀ (seed : BitVec 64) (draws : Nat) (min max : BitVec 64), min < max →
      (∃ steps value,
        FirstAccepted (accept min (max - min) (thresholdOf (max - min)))
          (advance^[draws] (random_seed seed)) steps value ∧
        min ≤ value ∧ value < max ∧
        ∀ more, steps < more →
          random_u64_range more (some (advance^[draws] (random_seed seed))) min max =
            .ok (value, some (advance^[steps + 1 + draws] (random_seed seed)))) ∧
      ∀ value, min ≤ value → value < max →
        Set.ncard {sample | accept min (max - min) (thresholdOf (max - min)) sample = some value} =
          2 ^ 64 / (max - min).toNat) ∧
    (∀ (seed : BitVec 64) (draws : Nat) (min max : Int),
      -(2 ^ 63) ≤ min → max < 2 ^ 63 → min < max →
      (∃ steps value,
        FirstAccepted (signed min max) (advance^[draws] (random_seed seed)) steps (.ok value) ∧
        min ≤ value ∧ value < max ∧
        ∀ more, steps < more →
          random_i64_range more (some (advance^[draws] (random_seed seed))) min max =
            .ok (value, some (advance^[steps + 1 + draws] (random_seed seed)))) ∧
      ∀ value, min ≤ value → value < max →
        Set.ncard {sample | signed min max sample = some (.ok value)} =
          2 ^ 64 / (max - min).toNat) := by
  have unsigned (seed : BitVec 64) (draws : Nat) (min max : BitVec 64) (ordered : min < max) :
      ∃ steps value,
        FirstAccepted (accept min (max - min) (thresholdOf (max - min)))
          (advance^[draws] (random_seed seed)) steps value ∧
        min ≤ value ∧ value < max ∧
        ∀ more, steps < more →
          random_u64_range more (some (advance^[draws] (random_seed seed))) min max =
            .ok (value, some (advance^[steps + 1 + draws] (random_seed seed))) := by
    obtain ⟨steps, value, first⟩ :=
      @range_loop_returns min (max - min) _ (thresholdOf_lt (range_toNat ordered).2) _
        (advance_ne_zero (seed_ne_zero seed) draws)
    obtain ⟨above, below⟩ := accept_range ordered first.accepted
    refine ⟨steps, value, first, above, below, fun more enough => ?_⟩
    have proper : ¬max ≤ min := BitVec.not_le.2 ordered
    rw [random_u64_range]
    simp only [if_neg proper, range_loop_eq first enough, iterate_add_apply]
    rfl
  refine ⟨fun seed draws min max ordered => ⟨unsigned seed draws min max ordered,
    fun value above below => accept_count ordered above below⟩,
    fun seed draws min max low high ordered => ⟨?_,
      fun value above below => signed_count low high ordered above below⟩⟩
  obtain ⟨steps, value, first, above, below, run⟩ :=
    unsigned seed draws (place min) (place max) (place_ordered low high ordered)
  have least := place_toNat low (by omega)
  have greatest := place_toNat (n := max) (by omega) high
  have number : random_i64_from_u64 (value ^^^ offset) = .ok ((value.toNat : Int) - 2 ^ 63) := by
    rw [random_i64_from_u64_eq, toInt_offset]
  rw [BitVec.le_def] at above
  rw [BitVec.lt_def] at below
  refine ⟨steps, (value.toNat : Int) - 2 ^ 63, ⟨fun k hk => ?_, ?_⟩, by omega, by omega,
    fun more enough => ?_⟩
  · rw [signed, first.rejected k hk, Option.map_none]
  · rw [signed, first.accepted, Option.map_some, number]
  · have returned := run more enough
    unfold place at returned
    rw [random_i64_range]
    simp only [if_neg (show ¬max ≤ min by omega), returned, bind, Except.bind, number]
    rfl

theorem range_uniform_die :
    (∃ steps value,
      FirstAccepted (accept 1 (7 - 1) (thresholdOf (7 - 1))) (advance^[3] (random_seed 42))
        steps value ∧
      1 ≤ value ∧ value < 7 ∧
      ∀ more, steps < more →
        random_u64_range more (some (advance^[3] (random_seed 42))) 1 7 =
          .ok (value, some (advance^[steps + 1 + 3] (random_seed 42)))) ∧
    Set.ncard {sample | accept 1 (7 - 1) (thresholdOf (7 - 1)) sample = some 4} =
      2 ^ 64 / ((7 : BitVec 64) - 1).toNat ∧
    Set.ncard {sample | signed (-(2 ^ 63)) (2 ^ 63 - 1) sample = some (.ok 0)} =
      2 ^ 64 / ((2 ^ 63 - 1 : Int) - -(2 ^ 63)).toNat :=
  ⟨(range_uniform.1 42 3 1 7 (by decide)).1,
    (range_uniform.1 42 3 1 7 (by decide)).2 4 (by decide) (by decide),
    (range_uniform.2 42 3 (-(2 ^ 63)) (2 ^ 63 - 1) (by decide) (by decide) (by decide)).2 0
      (by decide) (by decide)⟩

end Coter.Rand
