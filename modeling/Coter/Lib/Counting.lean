import Mathlib

/-!
# Counting

How the number of elements of a list without repetition that have a property, or a sum
over the elements, changes when the value of one element does; and how many numbers of a
stretch have a given remainder.
-/

namespace Lib.Counting

variable {α β : Type} [DecidableEq α]

/-- A value outside the list does not count. -/
theorem countP_replace_off {l : List α} (p : β → Bool) (f : α → β) {a : α} (ha : a ∉ l) (b : β) :
    l.countP (fun x => p (if x = a then b else f x)) = l.countP (fun x => p (f x)) := by
  apply List.countP_congr
  intro y hy
  have : y ≠ a := by rintro rfl; exact ha hy
  simp [this]

/-- `countP` where one element's value is replaced. -/
theorem countP_replace {l : List α} (hl : l.Nodup) (p : β → Bool) (f : α → β) {a : α}
    (ha : a ∈ l) (b : β) :
    l.countP (fun x => p (if x = a then b else f x)) + (if p (f a) then 1 else 0) =
      l.countP (fun x => p (f x)) + (if p b then 1 else 0) := by
  induction l with
  | nil => simp at ha
  | cons x xs ih =>
    obtain ⟨hx, hxs⟩ := List.nodup_cons.1 hl
    simp only [List.countP_cons]
    by_cases hxa : x = a
    · subst hxa
      rw [countP_replace_off p f hx b]
      simp only [↓reduceIte]
      omega
    · have := ih hxs (by simpa [Ne.symm hxa] using ha)
      simp only [hxa, ↓reduceIte]
      omega

theorem countP_erase_mem {l : List α} (p : α → Bool) {a : α} (ha : a ∈ l) :
    (l.erase a).countP p + (if p a then 1 else 0) = l.countP p := by
  have := (List.perm_cons_erase ha).countP_eq p
  rw [List.countP_cons] at this
  omega

theorem sum_replace_off {l : List α} (g : β → Nat) (f : α → β) {a : α} (ha : a ∉ l) (b : β) :
    (l.map (fun x => g (if x = a then b else f x))).sum = (l.map (fun x => g (f x))).sum := by
  congr 1
  apply List.map_congr_left
  intro y hy
  have : y ≠ a := by rintro rfl; exact ha hy
  simp [this]

/-- A sum where one element's value is replaced. -/
theorem sum_replace {l : List α} (hl : l.Nodup) (g : β → Nat) (f : α → β) {a : α} (ha : a ∈ l)
    (b : β) : (l.map (fun x => g (if x = a then b else f x))).sum + g (f a) =
      (l.map (fun x => g (f x))).sum + g b := by
  induction l with
  | nil => simp at ha
  | cons x xs ih =>
    obtain ⟨hx, hxs⟩ := List.nodup_cons.1 hl
    simp only [List.map_cons, List.sum_cons]
    by_cases hxa : x = a
    · subst hxa
      rw [sum_replace_off g f hx b]
      simp only [↓reduceIte]
      omega
    · have := ih hxs (by simpa [Ne.symm hxa] using ha)
      simp only [hxa, ↓reduceIte]
      omega

theorem sum_erase_mem {l : List α} (g : α → Nat) {a : α} (ha : a ∈ l) :
    ((l.erase a).map g).sum + g a = (l.map g).sum := by
  have := ((List.perm_cons_erase ha).map g).sum_nat
  rw [List.map_cons, List.sum_cons] at this
  omega

/-! ## Remainders -/

/-- In a stretch of `d * count` numbers, each remainder by `d` occurs `count` times. -/
theorem ncard_remainder {d w : Nat} (t count : Nat) (hw : w < d) :
    Set.ncard {s : Nat | t ≤ s ∧ s < t + d * count ∧ s % d = w} = count := by
  -- The first number with this remainder is `t + c`.
  obtain ⟨c, hc, first⟩ : ∃ c, c < d ∧ (t + c) % d = w := by
    have rest := Nat.mod_lt t (by omega : 0 < d)
    refine ⟨(w + (d - t % d)) % d, Nat.mod_lt _ (by omega), ?_⟩
    rw [Nat.add_mod_mod, ← Nat.mod_add_mod, ← Nat.add_assoc, Nat.add_comm (t % d),
      Nat.add_assoc, Nat.add_sub_cancel' rest.le, Nat.add_mod_right, Nat.mod_eq_of_lt hw]
  have image : {s : Nat | t ≤ s ∧ s < t + d * count ∧ s % d = w} =
      (fun k => t + c + d * k) '' Set.Iio count := by
    ext s
    constructor
    · rintro ⟨low, high, same⟩
      have apart : (s - t) % d = c := by
        have both : (t + (s - t)) % d = (t + c) % d := by rw [first, Nat.add_sub_cancel' low, same]
        have := Nat.ModEq.add_left_cancel' t both
        rw [← Nat.mod_eq_of_lt hc]
        exact this
      have parts := Nat.div_add_mod (s - t) d
      refine ⟨(s - t) / d, ?_, by dsimp only; omega⟩
      exact (Nat.div_lt_iff_lt_mul (by omega)).2 (by rw [Nat.mul_comm]; omega)
    · rintro ⟨k, hk, rfl⟩
      have step : d * (k + 1) ≤ d * count := Nat.mul_le_mul_left d hk
      rw [Nat.mul_succ] at step
      refine ⟨by dsimp only; omega, by dsimp only; omega, ?_⟩
      dsimp only
      rw [Nat.add_mul_mod_self_left, first]
  rw [image, Set.ncard_image_of_injective, Set.ncard_Iio_nat]
  intro a b h
  have : d * a = d * b := by dsimp only at h; omega
  exact Nat.eq_of_mul_eq_mul_left (by omega) this

end Lib.Counting
