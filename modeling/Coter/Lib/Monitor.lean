import Mathlib

/-!
# Monitors

A mutex and any number of threads, each with a program counter. A predicate on the
program counters tells which threads are inside the mutex, another one which threads
wait on a condition variable.

* `Guarded`: the thread inside the mutex is its owner. Each way a thread can move
  keeps it;
* `wake`: what a notification does to the threads that it chooses.
-/

namespace Lib.Monitor

variable {P : Type}

/-- The owner of the mutex and where each thread stands. -/
structure Threads (P : Type) where
  owner : Option Nat
  pc : Nat → P

namespace Threads

/-- Nobody has begun yet. -/
def idle (pc : P) : Threads P := ⟨none, fun _ => pc⟩

/-- The thread moves on without touching the mutex. -/
def goto (m : Threads P) (t : Nat) (pc : P) : Threads P :=
  { m with pc := Function.update m.pc t pc }

/-- The thread takes the mutex. -/
def enter (m : Threads P) (t : Nat) (pc : P) : Threads P := ⟨some t, Function.update m.pc t pc⟩

/-- The thread gives the mutex back. -/
def leave (m : Threads P) (t : Nat) (pc : P) : Threads P := ⟨none, Function.update m.pc t pc⟩

/-- The chosen threads are woken. -/
def wake (m : Threads P) (woken : P → P) (chosen : Nat → Bool) : Threads P :=
  { m with pc := fun t => if chosen t then woken (m.pc t) else m.pc t }

/-- A signal wakes one of the first `n` threads, if any of them waits. -/
def MayWake (m : Threads P) (waits : P → Bool) (n : Nat) : Option Nat → Prop
  | some t => waits (m.pc t) = true
  | none => ∀ t < n, waits (m.pc t) = false

instance (m : Threads P) (waits : P → Bool) (n : Nat) : DecidablePred (m.MayWake waits n)
  | some t => inferInstanceAs (Decidable (waits (m.pc t) = true))
  | none => inferInstanceAs (Decidable (∀ t < n, _))

variable (m : Threads P) {t u : Nat} (pc : P)

@[simp] theorem goto_owner : (m.goto t pc).owner = m.owner := rfl

@[simp] theorem enter_owner : (m.enter t pc).owner = some t := rfl

@[simp] theorem leave_owner : (m.leave t pc).owner = none := rfl

@[simp] theorem wake_owner (woken : P → P) (chosen : Nat → Bool) :
    (m.wake woken chosen).owner = m.owner := rfl

theorem goto_pc : (m.goto t pc).pc u = if u = t then pc else m.pc u := by
  simp [goto, Function.update_apply]

theorem enter_pc : (m.enter t pc).pc u = if u = t then pc else m.pc u := by
  simp [enter, Function.update_apply]

theorem leave_pc : (m.leave t pc).pc u = if u = t then pc else m.pc u := by
  simp [leave, Function.update_apply]

theorem wake_pc (woken : P → P) (chosen : Nat → Bool) :
    (m.wake woken chosen).pc u = if chosen u then woken (m.pc u) else m.pc u := rfl

end Threads

open Threads

/-! ## The owner -/

/-- A thread is inside the mutex exactly if it owns it. -/
def Guarded (inside : P → Bool) (m : Threads P) : Prop :=
  ∀ t, inside (m.pc t) = true ↔ m.owner = some t

section Guarded

variable {inside : P → Bool} {m : Threads P} {t u : Nat} {pc : P}

theorem guarded_idle (h : inside pc = false) : Guarded inside (idle pc) := by
  intro t
  simp [idle, h]

theorem Guarded.owner (h : Guarded inside m) (ht : inside (m.pc t) = true) :
    m.owner = some t :=
  (h t).1 ht

/-- While the mutex is free, nobody is inside. -/
theorem Guarded.free (h : Guarded inside m) (free : m.owner = none) (t : Nat) :
    inside (m.pc t) = false := by
  by_contra ht
  have := (h t).1 (by simpa using ht)
  rw [free] at this
  cases this

/-- Only one thread is inside. -/
theorem Guarded.unique (h : Guarded inside m) (ht : inside (m.pc t) = true)
    (hu : inside (m.pc u) = true) : u = t :=
  Option.some.inj ((h.owner hu).symm.trans (h.owner ht))

theorem Guarded.goto (h : Guarded inside m) (ht : inside pc = inside (m.pc t)) :
    Guarded inside (m.goto t pc) := by
  intro u
  rw [goto_pc]
  by_cases hu : u = t
  · subst hu
    simpa [ht] using h u
  · simpa [hu] using h u

theorem Guarded.enter (h : Guarded inside m) (free : m.owner = none) (ht : inside pc = true) :
    Guarded inside (m.enter t pc) := by
  intro u
  rw [enter_pc]
  by_cases hu : u = t
  · simp [hu, ht]
  · have outside := h.free free u
    have other : t ≠ u := fun e => hu e.symm
    simp [hu, outside, other]

theorem Guarded.leave (h : Guarded inside m) (holds : inside (m.pc t) = true)
    (ht : inside pc = false) : Guarded inside (m.leave t pc) := by
  intro u
  rw [leave_pc]
  by_cases hu : u = t
  · simp [hu, ht]
  · have outside : inside (m.pc u) = false := by
      by_contra hin
      exact hu (h.unique holds (by simpa using hin))
    simp [hu, outside]

theorem Guarded.wake {woken : P → P} (h : Guarded inside m)
    (hw : ∀ pc, inside (woken pc) = inside pc) (chosen : Nat → Bool) :
    Guarded inside (m.wake woken chosen) := by
  intro u
  rw [wake_pc, wake_owner]
  split
  · rw [hw]
    exact h u
  · exact h u

end Guarded

end Lib.Monitor
