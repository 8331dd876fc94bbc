import Coter.Sync.RwLockRun

/-!
# Writers go first

* `step_readers`: while a writer waits, a step lets no reader in;
* `writers_first`: over a run through which a writer waits.
-/

namespace Coter.RwLock

open Lib.Lts

variable {s s' : System} {t : Nat}

/-- The writer is blocked, or woken and not yet back. -/
def Waits (t : Nat) (s : System) : Prop := t ∈ s.blockedWriters ∨ t ∈ s.wokenWriters

instance (t : Nat) : DecidablePred (Waits t) := fun _ => inferInstanceAs (Decidable (_ ∨ _))

theorem Inv.waits (i : Inv s) (h : Waits t s) : s.lock.waitingWriters ≠ 0 := by
  have waiting := i.waiting
  rcases h with blocked | woken
  · have := List.length_pos_of_mem blocked
    omega
  · have := List.length_pos_of_mem woken
    omega

theorem rdlock_readers (h : s.lock.waitingWriters ≠ 0) (t : Nat) :
    (s.afterRdlock t).readers = s.readers := by
  rw [System.afterRdlock, rdlock, if_pos (.inr h)]

theorem tryrdlock_refused (h : s.lock.waitingWriters ≠ 0) (taken : Bool) :
    tryrdlock s.lock taken = (.ebusy, s.lock) := by
  unfold tryrdlock
  split
  · rfl
  · rw [if_pos (.inr h)]

theorem wrlock_readers (s : System) (t : Nat) : (s.afterWrlock t).readers = s.readers := by
  unfold System.afterWrlock
  split <;> rfl

theorem notify_readers (s : System) (notice : Notice) (woke : Option Nat) :
    (s.notify notice woke).readers = s.readers := by
  unfold System.notify
  split <;> rfl

theorem step_readers {l : Label} (h : s.lock.waitingWriters ≠ 0) (hstep : step s l = some s') :
    s'.readers.Sublist s.readers := by
  have kept {r : List Nat} (same : s'.readers = r) (h : r.Sublist s.readers) :
      s'.readers.Sublist s.readers := same ▸ h
  cases l with
  | rdlock u =>
    simp only [step] at hstep
    split at hstep <;> cases hstep
    exact kept (rdlock_readers h u) (List.Sublist.refl _)
  | wrlock u =>
    simp only [step] at hstep
    split at hstep <;> cases hstep
    exact kept (wrlock_readers s u) (List.Sublist.refl _)
  | tryrdlock u taken =>
    simp only [step, tryrdlock_refused h] at hstep
    split at hstep <;> cases hstep
    exact List.Sublist.refl _
  | trywrlock u taken =>
    simp only [step] at hstep
    split at hstep
    · split at hstep <;> cases hstep <;> exact List.Sublist.refl _
    · cases hstep
  | rdunlock u woke =>
    simp only [step] at hstep
    split at hstep
    · split at hstep
      · split at hstep <;> cases hstep
        exact kept (notify_readers _ _ _) List.erase_sublist
      · cases hstep
        exact List.Sublist.refl _
    · cases hstep
  | wrunlock u woke =>
    simp only [step] at hstep
    split at hstep
    · split at hstep
      · split at hstep <;> cases hstep
        exact kept (notify_readers _ _ _) (List.Sublist.refl _)
      · cases hstep
        exact List.Sublist.refl _
    · cases hstep
  | wakeReader u | wakeWriter u =>
    simp only [step] at hstep
    split at hstep <;> cases hstep
    exact List.Sublist.refl _
  | resumeReader u =>
    simp only [step] at hstep
    split at hstep <;> cases hstep
    exact kept (rdlock_readers (by exact h) u) (List.Sublist.refl _)
  | resumeWriter u =>
    simp only [step] at hstep
    split at hstep <;> cases hstep
    exact kept (wrlock_readers _ u) (List.Sublist.refl _)

theorem run_readers {ls : List Label} (i : Inv s) (waits : Throughout step (Waits t) s ls)
    (hrun : run step s ls = some s') : s'.readers.Sublist s.readers := by
  induction ls generalizing s with
  | nil =>
    obtain rfl : s = s' := by simpa [run] using hrun
    exact List.Sublist.refl _
  | cons l ls ih =>
    obtain ⟨m, hstep, hrest⟩ := run_cons hrun
    have later := ih (step_inv i hstep) (waits.2 m hstep) hrest
    exact later.trans (step_readers (i.waits waits.1) hstep)

/-- **No reader overtakes a writer.** From any state that the lock can reach and over any run
through which a thread waits in `ct_rwlock_wrlock`, the readers at its end were readers at its
beginning, each at least as many times: they leave, and nobody joins them. -/
theorem writers_first {ls ls' : List Label} (t : Nat) (reached : run step start ls = some s)
    (waits : Throughout step (Waits t) s ls') (hrun : run step s ls' = some s') :
    s'.readers.Sublist s.readers :=
  run_readers (run_invariant (fun _ _ _ i h => step_inv i h) start_inv reached) waits hrun

/-- Two readers hold the lock when the writer 2 comes, one leaves, and the reader 3 waits. -/
theorem writers_first_third : [1].Sublist [1, 0] :=
  @writers_first ⟨⟨2, 1⟩, [], [2], [], [], [1, 0], []⟩ ⟨⟨1, 1⟩, [3], [2], [], [], [1], []⟩
    [.rdlock 0, .rdlock 1, .wrlock 2] [.rdlock 3, .tryrdlock 4 false, .rdunlock 0 none] 2
    (by decide) (by decide) (by decide)

end Coter.RwLock
