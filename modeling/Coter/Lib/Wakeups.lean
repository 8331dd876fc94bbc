import Coter.Lib.Counting

/-!
# Tokens and those who wait for them

Threads that find no token fall asleep, and whoever brings a token wakes one of them.

* `Served`: while a thread is asleep, there is somebody up and about for every token;
* `Served.move`: what a thread may do on its own;
* `Served.wake`: a notification.
-/

namespace Lib.Wakeups

/-- Where a thread stands towards the tokens. An attentive one is about to look for a token
or to wake another thread. -/
inductive Place
  | away
  | asleep
  | attentive
  deriving DecidableEq, Repr

/-- How many of the first `n` threads are attentive. -/
def attentive (n : Nat) (f : Nat → Place) : Nat := (List.range n).countP fun t => f t = .attentive

/-- While one of the first `n` threads is asleep, each token has an attentive one. -/
def Served (n : Nat) (f : Nat → Place) (tokens : Nat) : Prop :=
  (∃ t < n, f t = .asleep) → tokens ≤ attentive n f

variable {n t u tokens tokens' : Nat} {f : Nat → Place} {p : Place}

theorem attentive_update (ht : t < n) (f : Nat → Place) (p : Place) :
    attentive n (Function.update f t p) + (if f t = .attentive then 1 else 0) =
      attentive n f + (if p = .attentive then 1 else 0) := by
  have replaced := Lib.Counting.countP_replace List.nodup_range (fun x : Place => x = .attentive) f
    (List.mem_range.2 ht) p
  simp only [decide_eq_true_eq] at replaced
  simpa only [attentive, Function.update_apply] using replaced

theorem served_of_awake (h : ∀ t < n, f t ≠ .asleep) : Served n f tokens := by
  rintro ⟨t, ht, asleep⟩
  exact absurd asleep (h t ht)

/-- A thread goes elsewhere and the number of tokens changes. Unless there is none left, it
does not fall asleep, and is missed only with a token. -/
theorem Served.move (h : Served n f tokens) (ht : t < n)
    (enough : tokens' ≠ 0 → p ≠ .asleep ∧ tokens' + (if f t = .attentive then 1 else 0) ≤
      tokens + (if p = .attentive then 1 else 0)) :
    Served n (Function.update f t p) tokens' := by
  rintro ⟨u, hu, asleep⟩
  by_cases none : tokens' = 0
  · rw [none]
    exact Nat.zero_le _
  · obtain ⟨awake, enough⟩ := enough none
    have apart : u ≠ t := by
      rintro rfl
      rw [Function.update_self] at asleep
      exact awake asleep
    rw [Function.update_of_ne apart] at asleep
    have before := h ⟨u, hu, asleep⟩
    have count := attentive_update ht f p
    omega

/-- The thread `t` wakes the sleeping thread `u` and goes elsewhere. -/
theorem Served.wake (h : Served n f tokens) (ht : t < n) (hu : u < n) (attends : f t = .attentive)
    (sleeps : f u = .asleep) (hp : p ≠ .asleep) :
    Served n (Function.update (Function.update f u .attentive) t p) tokens := by
  have apart : t ≠ u := by
    rintro rfl
    rw [attends] at sleeps
    cases sleeps
  have more : Served n (Function.update f u .attentive) (tokens + 1) := by
    refine h.move hu fun _ => ⟨nofun, ?_⟩
    rw [sleeps]
    simp
  refine more.move ht fun _ => ⟨hp, ?_⟩
  rw [Function.update_of_ne apart, attends]
  simp

end Lib.Wakeups
