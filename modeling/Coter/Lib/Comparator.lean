import Mathlib

/-!
# Three-way comparators

A comparator answers a negative, zero or positive number. `TotalPreorder` is
what a caller has to give for an order: the sign flips when the arguments do,
and "not after" is transitive.
-/

namespace Lib.Comparator

variable {α : Type}

/-- The comparator orders its arguments: equal answers are ties, not mistakes. -/
structure TotalPreorder (cmp : α → α → Int) : Prop where
  flip : ∀ a b, cmp a b < 0 ↔ 0 < cmp b a
  trans : ∀ a b c, cmp a b ≤ 0 → cmp b c ≤ 0 → cmp a c ≤ 0

variable {cmp : α → α → Int}

theorem TotalPreorder.not_before (h : TotalPreorder cmp) {a b : α} :
    ¬ cmp a b < 0 ↔ cmp b a ≤ 0 := by
  rw [h.flip]
  omega

theorem TotalPreorder.refl (h : TotalPreorder cmp) (a : α) : cmp a a ≤ 0 := by
  have := h.flip a a
  omega

theorem TotalPreorder.total (h : TotalPreorder cmp) (a b : α) : cmp a b ≤ 0 ∨ cmp b a ≤ 0 := by
  have := h.flip b a
  omega

theorem TotalPreorder.before_of_before (h : TotalPreorder cmp) {a b c : α}
    (hab : cmp a b < 0) (hbc : cmp b c ≤ 0) : cmp a c < 0 := by
  apply Classical.byContradiction
  intro hac
  have hca := h.not_before.1 hac
  have hba := h.trans b c a hbc hca
  exact h.not_before.2 hba hab

/-- Comparing what the elements carry. -/
theorem TotalPreorder.comap {β : Type} (h : TotalPreorder cmp) (f : β → α) :
    TotalPreorder (fun a b => cmp (f a) (f b)) where
  flip a b := h.flip (f a) (f b)
  trans a b c := h.trans (f a) (f b) (f c)

/-- Comparing by a number the elements carry is a total preorder. -/
theorem TotalPreorder.ofKey (key : α → Int) : TotalPreorder (fun a b => key a - key b) where
  flip a b := by omega
  trans a b c hab hbc := by omega

end Lib.Comparator
