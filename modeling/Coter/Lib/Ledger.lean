import Mathlib

/-!
# Numbered jobs, each in one hand

Jobs are numbered in the order in which they are taken. A hand that is free takes the
next one, starts it, and is free again when it has finished it.

* `Moves`: what a step does to the ledger;
* `Tidy`: a number that was taken is in one hand or has been started, once;
* `Moves.tidy`: a step keeps the ledger tidy;
* `Tidy.settled`: while every hand is free, what was taken is what was started, and
  all of it is finished.
-/

namespace Lib.Ledger

inductive Hand
  | free
  | holds (k : Nat)
  | works (k : Nat)
  deriving DecidableEq, Repr

/-- How many jobs were taken, who has one, and which were started and finished, in
this order. -/
structure State (W : Type) where
  taken : Nat
  hand : W → Hand
  started : List Nat
  finished : List Nat

variable {W : Type} {l l' : State W}

/-- Each number that was taken is in one hand or has been started, and what has been
started is worked on or finished. -/
structure Tidy (l : State W) : Prop where
  once : l.started.Nodup
  counted : ∀ k ∈ l.started, k < l.taken
  held : ∀ w k, l.hand w = .holds k → k < l.taken ∧ k ∉ l.started
  alone : ∀ w v k, l.hand w = .holds k → l.hand v = .holds k → w = v
  kept : ∀ k < l.taken, k ∈ l.started ∨ ∃ w, l.hand w = .holds k
  worked : ∀ k ∈ l.started, k ∈ l.finished ∨ ∃ w, l.hand w = .works k

section
variable [DecidableEq W]

inductive Moves (l : State W) : State W → Prop
  | rests : Moves l l
  | takes (w : W) (h : l.hand w = .free) :
      Moves l { l with taken := l.taken + 1, hand := Function.update l.hand w (.holds l.taken) }
  | starts (w : W) (k : Nat) (h : l.hand w = .holds k) :
      Moves l { l with hand := Function.update l.hand w (.works k), started := l.started ++ [k] }
  | finishes (w : W) (k : Nat) (h : l.hand w = .works k) :
      Moves l { l with hand := Function.update l.hand w .free, finished := l.finished ++ [k] }


theorem hand_cases {f : W → Hand} {w v : W} {x y : Hand} (h : Function.update f w x v = y) :
    v = w ∧ x = y ∨ v ≠ w ∧ f v = y := by
  by_cases hv : v = w
  · subst hv
    rw [Function.update_self] at h
    exact Or.inl ⟨rfl, h⟩
  · rw [Function.update_of_ne hv] at h
    exact Or.inr ⟨hv, h⟩

/-- What another hand has stays there. -/
theorem hand_other {f : W → Hand} {w v : W} {x y : Hand} (hw : f w ≠ y) (hv : f v = y) :
    Function.update f w x v = y := by
  have apart : v ≠ w := by
    rintro rfl
    exact hw hv
  rw [Function.update_of_ne apart, hv]

/-- A hand that lets go leaves every number in one hand at most. -/
theorem Tidy.alone_update (t : Tidy l) (w : W) {x : Hand} (lets : ∀ k, x ≠ .holds k) (u v : W)
    (k : Nat) (hu : Function.update l.hand w x u = .holds k)
    (hv : Function.update l.hand w x v = .holds k) : u = v := by
  rcases hand_cases hu with ⟨-, same⟩ | ⟨-, hu⟩
  · exact absurd same (lets k)
  · rcases hand_cases hv with ⟨-, same⟩ | ⟨-, hv⟩
    · exact absurd same (lets k)
    · exact t.alone u v k hu hv

theorem takes_tidy (t : Tidy l) (w : W) (h : l.hand w = .free) :
    Tidy { l with taken := l.taken + 1, hand := Function.update l.hand w (.holds l.taken) } where
  once := t.once
  counted k hk := Nat.lt_succ_of_lt (t.counted k hk)
  held v k hv := by
    rcases hand_cases hv with ⟨-, same⟩ | ⟨-, old⟩
    · obtain rfl : l.taken = k := by simpa using same
      exact ⟨Nat.lt_succ_self _, fun hk => absurd (t.counted _ hk) (Nat.lt_irrefl _)⟩
    · exact ⟨Nat.lt_succ_of_lt (t.held v k old).1, (t.held v k old).2⟩
  alone u v k hu hv := by
    have fresh (x : W) : l.hand x ≠ .holds l.taken := by
      intro hx
      exact Nat.lt_irrefl _ (t.held x _ hx).1
    rcases hand_cases hu with ⟨rfl, same⟩ | ⟨-, old⟩ <;>
      rcases hand_cases hv with ⟨rfl, same'⟩ | ⟨-, old'⟩
    · rfl
    · obtain rfl : l.taken = k := by simpa using same
      exact absurd old' (fresh v)
    · obtain rfl : l.taken = k := by simpa using same'
      exact absurd old (fresh u)
    · exact t.alone u v k old old'
  kept k hk := by
    rcases Nat.lt_succ_iff_lt_or_eq.1 hk with old | rfl
    · rcases t.kept k old with started | ⟨v, hv⟩
      · exact Or.inl started
      · exact Or.inr ⟨v, hand_other (by simp [h]) hv⟩
    · exact Or.inr ⟨w, Function.update_self ..⟩
  worked k hk := by
    rcases t.worked k hk with done | ⟨v, hv⟩
    · exact Or.inl done
    · exact Or.inr ⟨v, hand_other (by simp [h]) hv⟩

theorem starts_tidy (t : Tidy l) (w : W) (k : Nat) (h : l.hand w = .holds k) :
    Tidy { l with hand := Function.update l.hand w (.works k), started := l.started ++ [k] } where
  once := by
    refine List.nodup_append.2 ⟨t.once, List.nodup_singleton k, ?_⟩
    rintro a ha b hb rfl
    rw [List.mem_singleton] at hb
    exact (t.held w k h).2 (hb ▸ ha)
  counted j hj := by
    rcases List.mem_append.1 hj with old | new
    · exact t.counted j old
    · rw [List.mem_singleton.1 new]
      exact (t.held w k h).1
  held v j hv := by
    rcases hand_cases hv with ⟨-, same⟩ | ⟨apart, old⟩
    · cases same
    · refine ⟨(t.held v j old).1, fun hj => ?_⟩
      rcases List.mem_append.1 hj with started | new
      · exact (t.held v j old).2 started
      · rw [List.mem_singleton.1 new] at old
        exact apart (t.alone v w k old h)
  alone := t.alone_update w (by simp)
  kept j hj := by
    by_cases same : j = k
    · exact Or.inl (List.mem_append_right _ (List.mem_singleton.2 same))
    · rcases t.kept j hj with started | ⟨v, hv⟩
      · exact Or.inl (List.mem_append_left _ started)
      · refine Or.inr ⟨v, hand_other ?_ hv⟩
        rw [h]
        rintro ⟨⟩
        exact same rfl
  worked j hj := by
    rcases List.mem_append.1 hj with old | new
    · rcases t.worked j old with done | ⟨v, hv⟩
      · exact Or.inl done
      · exact Or.inr ⟨v, hand_other (by simp [h]) hv⟩
    · rw [List.mem_singleton.1 new]
      exact Or.inr ⟨w, Function.update_self ..⟩

theorem finishes_tidy (t : Tidy l) (w : W) (k : Nat) (h : l.hand w = .works k) :
    Tidy { l with hand := Function.update l.hand w .free, finished := l.finished ++ [k] } where
  once := t.once
  counted := t.counted
  held v j hv := by
    rcases hand_cases hv with ⟨-, same⟩ | ⟨-, old⟩
    · cases same
    · exact t.held v j old
  alone := t.alone_update w (by simp)
  kept j hj := by
    rcases t.kept j hj with started | ⟨v, hv⟩
    · exact Or.inl started
    · exact Or.inr ⟨v, hand_other (by simp [h]) hv⟩
  worked j hj := by
    by_cases same : j = k
    · exact Or.inl (List.mem_append_right _ (List.mem_singleton.2 same))
    · rcases t.worked j hj with done | ⟨v, hv⟩
      · exact Or.inl (List.mem_append_left _ done)
      · refine Or.inr ⟨v, hand_other ?_ hv⟩
        rw [h]
        rintro ⟨⟩
        exact same rfl

theorem Moves.tidy (m : Moves l l') (t : Tidy l) : Tidy l' := by
  cases m with
  | rests => exact t
  | takes w h => exact takes_tidy t w h
  | starts w k h => exact starts_tidy t w k h
  | finishes w k h => exact finishes_tidy t w k h

end

/-- With every hand free, the jobs that were taken are those that were started, and
they are finished. -/
theorem Tidy.settled (t : Tidy l) (idle : ∀ w, l.hand w = .free) :
    (∀ k, k ∈ l.started ↔ k < l.taken) ∧ ∀ k ∈ l.started, k ∈ l.finished := by
  constructor
  · intro k
    refine ⟨t.counted k, fun hk => ?_⟩
    rcases t.kept k hk with started | ⟨w, hw⟩
    · exact started
    · rw [idle w] at hw
      cases hw
  · intro k hk
    rcases t.worked k hk with done | ⟨w, hw⟩
    · exact done
    · rw [idle w] at hw
      cases hw

/-- Nothing taken, and every hand free. -/
theorem tidy_empty {hand : W → Hand} (idle : ∀ w, hand w = .free) :
    Tidy (⟨0, hand, [], []⟩ : State W) where
  once := List.nodup_nil
  counted _ hk := absurd hk List.not_mem_nil
  held w _ hw := Hand.noConfusion ((idle w).symm.trans hw)
  alone w _ _ hw := Hand.noConfusion ((idle w).symm.trans hw)
  kept k hk := absurd hk (Nat.not_lt_zero k)
  worked _ hk := absurd hk List.not_mem_nil

end Lib.Ledger
