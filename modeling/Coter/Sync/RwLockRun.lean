import Coter.Sync.RwLock

/-!
# Runs of the readers-writer lock

* `Inv`: who holds the lock, and which wake-ups are under way;
* `rdlock_inv`, `wrlock_inv`, `rdunlock_inv`, `wrunlock_inv`: the sections keep it;
* `rwlock_runs`: what holds over all runs.
-/

namespace Coter.RwLock

open Lib.Lts

/-- The state counts who holds the lock. -/
def Held (state : Int) (readers writers : List Nat) : Prop :=
  (state = -1 ∧ writers.length = 1 ∧ readers = []) ∨
    (state = readers.length ∧ writers = [])

/-- What holds whenever the mutex is free. -/
structure Inv (s : System) : Prop where
  held : Held s.lock.state s.readers s.writers
  waiting : s.lock.waitingWriters = s.blockedWriters.length + s.wokenWriters.length
  small : s.lock.waitingWriters ≤ uintMax
  writer : s.lock.state = 0 → s.lock.waitingWriters ≠ 0 → s.wokenWriters ≠ []
  reader : 0 ≤ s.lock.state → s.lock.waitingWriters = 0 → s.blockedReaders = []

/-- The state tells who holds the lock, and nobody who could go on sleeps unwoken. -/
structure Good (s : System) : Prop where
  writing : s.lock.state = -1 ↔ s.writers.length = 1 ∧ s.readers = []
  reading : ∀ n : Nat, s.lock.state = n ↔ s.readers.length = n ∧ s.writers = []
  writer : s.lock.state = 0 → 0 < s.lock.waitingWriters → s.wokenWriters ≠ []
  reader : 0 ≤ s.lock.state → s.lock.waitingWriters = 0 → s.blockedReaders = []

variable {s t : System}

theorem Inv.good (i : Inv s) : Good s := by
  refine ⟨?_, ?_, ?_, i.reader⟩
  · rcases i.held with ⟨hstate, hw, hr⟩ | ⟨hstate, hw⟩
    · simp [hstate, hw, hr]
    · simp only [hstate, hw, List.length_nil]
      omega
  · intro n
    rcases i.held with ⟨hstate, hw, hr⟩ | ⟨hstate, hw⟩
    · have : s.writers ≠ [] := by
        rintro h
        rw [h] at hw
        cases hw
      simp only [hstate, this, and_false, iff_false]
      omega
    · simp only [hstate, hw, and_true]
      omega
  · intro hs hw
    exact i.writer hs (by omega)

/-- A reader's turn: it gets the lock, or leaves everything as it is, or waits for a
writer. -/
theorem rdlock_cases (l : RwLock) :
    (rdlock l = (.returns .ok, { l with state := l.state + 1 }) ∧ 0 ≤ l.state ∧
      l.waitingWriters = 0) ∨
    (rdlock l = (.returns .eagain, l)) ∨
    (rdlock l = (.waits, l) ∧ (l.state < 0 ∨ l.waitingWriters ≠ 0)) := by
  unfold rdlock
  split
  · rename_i blocked
    exact .inr (.inr ⟨rfl, blocked⟩)
  · rename_i clear
    split
    · exact .inr (.inl rfl)
    · exact .inl ⟨rfl, by omega, by omega⟩

theorem rdlock_inv (i : Inv s) (t : Nat) : Inv (s.afterRdlock t) := by
  unfold System.afterRdlock
  rcases rdlock_cases s.lock with ⟨h, hstate, hw⟩ | h | ⟨h, blocked⟩
  · rw [h]
    refine ⟨?_, i.waiting, i.small, ?_, ?_⟩
    · rcases i.held with ⟨hneg, -⟩ | ⟨hreaders, hwriters⟩
      · omega
      · exact .inr ⟨by simp [hreaders], hwriters⟩
    · intro _ hne
      exact absurd hw hne
    · intro _ _
      exact i.reader hstate hw
  · rw [h]
    exact i
  · rw [h]
    refine ⟨i.held, i.waiting, i.small, i.writer, ?_⟩
    intro hstate hw
    have hstate : 0 ≤ s.lock.state := hstate
    have hw : s.lock.waitingWriters = 0 := hw
    omega

/-- A writer's turn. Where the lock is free it is taken, whoever was woken for it. -/
theorem wrlock_inv (held : Held s.lock.state s.readers s.writers)
    (waiting : s.lock.waitingWriters = s.blockedWriters.length + s.wokenWriters.length)
    (small : s.lock.waitingWriters ≤ uintMax) (full : s.lock.waitingWriters = uintMax → Inv s)
    (t : Nat) : Inv (s.afterWrlock t) := by
  unfold System.afterWrlock wrlock
  by_cases hstate : s.lock.state = 0
  · rw [if_neg (not_not.2 hstate)]
    have nobody : s.readers = [] ∧ s.writers = [] := by
      rcases held with ⟨hneg, -⟩ | ⟨hreaders, hwriters⟩
      · omega
      · exact ⟨List.eq_nil_of_length_eq_zero (by omega), hwriters⟩
    refine ⟨.inl ⟨rfl, ?_, nobody.1⟩, waiting, small, ?_, ?_⟩
    · simp [nobody.2]
    · intro h
      cases h
    · intro h
      cases h
  · rw [if_pos hstate]
    by_cases hfull : s.lock.waitingWriters = uintMax
    · rw [if_pos hfull]
      exact full hfull
    · rw [if_neg hfull]
      have count : u32 (s.lock.waitingWriters + 1) = s.lock.waitingWriters + 1 := by
        unfold uintMax at small hfull
        exact u32_of_lt (by omega)
      refine ⟨held, ?_, ?_, ?_, ?_⟩
      · simp only [count, List.length_cons]
        omega
      · simp only [count]
        omega
      · exact fun h => absurd h hstate
      · intro _ h
        simp only [count] at h
        omega

theorem unwait_state (l : RwLock) : (unwait l).state = l.state := by
  cases l
  rfl

theorem unwait_waiting {l : RwLock} (h : 0 < l.waitingWriters) (h' : l.waitingWriters ≤ uintMax) :
    (unwait l).waitingWriters = l.waitingWriters - 1 := by
  unfold uintMax at h'
  simp only [unwait]
  rw [u32_pred h (by omega)]

theorem resumeWriter_inv (i : Inv s) {t : Nat} (h : t ∈ s.wokenWriters) :
    Inv ({ s with
      lock := unwait s.lock
      wokenWriters := s.wokenWriters.erase t }.afterWrlock t) := by
  have pos := List.length_pos_of_mem h
  have waiting := i.waiting
  have small := i.small
  have count := unwait_waiting (l := s.lock) (by omega) small
  apply wrlock_inv
  · rw [unwait_state]
    exact i.held
  · simp only [count, List.length_erase_of_mem h]
    omega
  · simp only [count]
    omega
  · intro full
    simp only [count] at full
    omega

/-! ## Unlocking -/

theorem notify_nobody (s : System) (woke : Option Nat) : s.notify .nobody woke = s := by
  cases woke <;> rfl

/-- A signal to the writers leaves one woken, if any waits. -/
theorem signalWriter_inv {woke : Option Nat} (held : Held s.lock.state s.readers s.writers)
    (waiting : s.lock.waitingWriters = s.blockedWriters.length + s.wokenWriters.length)
    (small : s.lock.waitingWriters ≤ uintMax) (some_ : s.lock.waitingWriters ≠ 0)
    (may : s.MayWake .signalWriter woke) : Inv (s.notify .signalWriter woke) := by
  cases woke with
  | none =>
    have none_blocked : s.blockedWriters = [] := may
    refine ⟨held, waiting, small, ?_, fun _ h => absurd h some_⟩
    intro _ _ hnil
    have hnil : s.wokenWriters = [] := hnil
    rw [none_blocked, hnil] at waiting
    exact some_ waiting
  | some t =>
    have blocked : t ∈ s.blockedWriters := may
    have pos := List.length_pos_of_mem blocked
    refine ⟨held, ?_, small, ?_, fun _ h => absurd h some_⟩
    · simp only [System.notify, System.wakeWriter, List.length_erase_of_mem blocked,
        List.length_cons]
      omega
    · simp [System.notify, System.wakeWriter]

/-- An unlock that does not succeed changes nothing. -/
theorem rdunlock_refused {l l' : RwLock} {code : Code} {notice : Notice}
    (h : rdunlock l = (code, notice, l')) (hcode : code ≠ .ok) : l' = l := by
  unfold rdunlock at h
  split at h
  · exact (Prod.mk.inj (Prod.mk.inj h).2).2.symm
  · dsimp only at h
    split at h <;> exact absurd (Prod.mk.inj h).1.symm hcode

theorem wrunlock_refused {l l' : RwLock} {code : Code} {notice : Notice}
    (h : wrunlock l = (code, notice, l')) (hcode : code ≠ .ok) : l' = l := by
  unfold wrunlock at h
  split at h
  · exact (Prod.mk.inj (Prod.mk.inj h).2).2.symm
  · dsimp only at h
    split at h <;> exact absurd (Prod.mk.inj h).1.symm hcode

theorem rdunlock_inv (i : Inv s) {t : Nat} {woke : Option Nat} (h : t ∈ s.readers)
    {notice : Notice} {l : RwLock} (hl : rdunlock s.lock = (.ok, notice, l))
    (may : s.MayWake notice woke) :
    Inv ({ s with lock := l, readers := s.readers.erase t }.notify notice woke) := by
  have pos := List.length_pos_of_mem h
  unfold rdunlock at hl
  by_cases hstate : s.lock.state ≤ 0
  · rw [if_pos hstate] at hl
    cases hl
  · rw [if_neg hstate] at hl
    have held : Held (s.lock.state - 1) (s.readers.erase t) s.writers := by
      rcases i.held with ⟨hneg, -⟩ | ⟨hreaders, hwriters⟩
      · omega
      · refine .inr ⟨?_, hwriters⟩
        rw [List.length_erase_of_mem h]
        omega
    dsimp only at hl
    split at hl
    · rename_i last
      obtain ⟨rfl, rfl⟩ := Prod.mk.inj (Prod.mk.inj hl).2
      exact signalWriter_inv held i.waiting i.small last.2 may
    · rename_i more
      obtain ⟨rfl, rfl⟩ := Prod.mk.inj (Prod.mk.inj hl).2
      rw [notify_nobody]
      refine ⟨held, i.waiting, i.small, ?_, ?_⟩
      · intro hzero hne
        exact absurd ⟨hzero, hne⟩ more
      · intro _ hw
        exact i.reader (by omega) hw

theorem wrunlock_inv (i : Inv s) {t : Nat} {woke : Option Nat} (h : t ∈ s.writers)
    {notice : Notice} {l : RwLock} (hl : wrunlock s.lock = (.ok, notice, l))
    (may : s.MayWake notice woke) :
    Inv ({ s with lock := l, writers := s.writers.erase t }.notify notice woke) := by
  unfold wrunlock at hl
  by_cases hstate : s.lock.state ≠ -1
  · rw [if_pos hstate] at hl
    cases hl
  · rw [if_neg hstate] at hl
    have held : Held 0 s.readers (s.writers.erase t) := by
      rcases i.held with ⟨-, hone, hreaders⟩ | ⟨hcount, -⟩
      · refine .inr ⟨by simp [hreaders], List.eq_nil_of_length_eq_zero ?_⟩
        rw [List.length_erase_of_mem h, hone]
      · omega
    dsimp only at hl
    split at hl
    · rename_i some_
      obtain ⟨rfl, rfl⟩ := Prod.mk.inj (Prod.mk.inj hl).2
      exact signalWriter_inv held i.waiting i.small some_ may
    · rename_i none_
      obtain ⟨rfl, rfl⟩ := Prod.mk.inj (Prod.mk.inj hl).2
      cases woke <;> exact ⟨held, i.waiting, i.small, fun _ hne => absurd hne none_, fun _ _ => rfl⟩

/-! ## Steps -/

/-- A try-lock does at most what the lock call does at once. -/
theorem tryrdlock_inv (i : Inv s) (t : Nat) (taken : Bool) :
    Inv (match tryrdlock s.lock taken with
      | (.ok, lock) => { s with lock, readers := t :: s.readers }
      | (_, lock) => { s with lock }) := by
  have locked := rdlock_inv i t
  unfold System.afterRdlock rdlock at locked
  unfold tryrdlock
  cases taken with
  | true => exact i
  | false =>
    simp only [Bool.false_eq_true, if_false]
    by_cases blocked : s.lock.state < 0 ∨ s.lock.waitingWriters ≠ 0
    · rw [if_pos blocked]
      exact i
    · rw [if_neg blocked] at locked ⊢
      by_cases hfull : s.lock.state = intMax
      · rw [if_pos hfull]
        exact i
      · rw [if_neg hfull] at locked ⊢
        exact locked

theorem trywrlock_inv (i : Inv s) (t : Nat) (taken : Bool) :
    Inv (match trywrlock s.lock taken with
      | (.ok, lock) => { s with lock, writers := t :: s.writers }
      | (_, lock) => { s with lock }) := by
  have locked := wrlock_inv i.held i.waiting i.small (fun _ => i) t
  unfold System.afterWrlock wrlock at locked
  unfold trywrlock
  cases taken with
  | true => exact i
  | false =>
    simp only [Bool.false_eq_true, if_false]
    by_cases blocked : s.lock.state ≠ 0
    · rw [if_pos blocked]
      exact i
    · rw [if_neg blocked] at locked ⊢
      exact locked

theorem wakeReader_inv (i : Inv s) (t : Nat) : Inv (s.wakeReader t) := by
  refine ⟨i.held, i.waiting, i.small, i.writer, ?_⟩
  intro hstate hw
  change s.blockedReaders.erase t = []
  rw [i.reader hstate hw]
  rfl

theorem wakeWriter_inv (i : Inv s) {t : Nat} (h : t ∈ s.blockedWriters) : Inv (s.wakeWriter t) := by
  have pos := List.length_pos_of_mem h
  have waiting := i.waiting
  refine ⟨i.held, ?_, i.small, ?_, i.reader⟩
  · simp only [System.wakeWriter, List.length_erase_of_mem h, List.length_cons]
    omega
  · simp [System.wakeWriter]

theorem step_inv {l : Label} (i : Inv s) (h : step s l = some t) : Inv t := by
  cases l with
  | rdlock u =>
    simp only [step] at h
    split at h <;> cases h
    exact rdlock_inv i u
  | wrlock u =>
    simp only [step] at h
    split at h <;> cases h
    exact wrlock_inv i.held i.waiting i.small (fun _ => i) u
  | tryrdlock u taken =>
    simp only [step] at h
    split at h
    · have := tryrdlock_inv i u taken
      split at h <;> rename_i hl <;> cases h <;> simpa only [hl] using this
    · cases h
  | trywrlock u taken =>
    simp only [step] at h
    split at h
    · have := trywrlock_inv i u taken
      split at h <;> rename_i hl <;> cases h <;> simpa only [hl] using this
    · cases h
  | rdunlock u woke =>
    simp only [step] at h
    split at h
    · rename_i ready
      split at h
      · rename_i notice l hl
        split at h
        · rename_i may
          cases h
          exact rdunlock_inv i ready.2 hl may
        · cases h
      · rename_i code notice l refused hl
        cases h
        rw [rdunlock_refused hl refused]
        exact i
    · cases h
  | wrunlock u woke =>
    simp only [step] at h
    split at h
    · rename_i ready
      split at h
      · rename_i notice l hl
        split at h
        · rename_i may
          cases h
          exact wrunlock_inv i ready.2 hl may
        · cases h
      · rename_i code notice l refused hl
        cases h
        rw [wrunlock_refused hl refused]
        exact i
    · cases h
  | wakeReader u =>
    simp only [step] at h
    split at h <;> cases h
    exact wakeReader_inv i u
  | wakeWriter u =>
    simp only [step] at h
    split at h
    · rename_i blocked
      cases h
      exact wakeWriter_inv i blocked
    · cases h
  | resumeReader u =>
    simp only [step] at h
    split at h <;> cases h
    apply rdlock_inv
    exact ⟨i.held, i.waiting, i.small, i.writer, i.reader⟩
  | resumeWriter u =>
    simp only [step] at h
    split at h
    · rename_i woken
      cases h
      exact resumeWriter_inv i woken
    · cases h

theorem start_inv : Inv start :=
  ⟨.inr ⟨rfl, rfl⟩, rfl, Nat.zero_le _, fun _ h => absurd rfl h, fun _ _ => rfl⟩

/-- **The lock counts its holders and wakes whom it should.** Over every run, the state
is -1 exactly if one writer holds the lock and `n` exactly if `n` readers do. Whenever
the mutex is free, a free lock that writers wait for has woken one of them, and no
reader sleeps unwoken that no writer keeps out. -/
theorem rwlock_runs (ls : List Label) : Throughout step Good start ls :=
  throughout_of_invariant (fun _ _ _ i h => step_inv i h) (fun _ i => i.good) start_inv ls

end Coter.RwLock
