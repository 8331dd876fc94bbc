import Coter.Sync.RwLockRun

/-!
# Who does what with a readers-writer lock

A thread that calls the lock in turn waits for it, holds it, or has nothing to do with it.

* `Roles`: the lists of the system tell each thread's role;
* `afterRdlock_roles`, `afterWrlock_roles`, `notify_roles`: the sections change the role of
  their thread alone;
* `Roles.readers_lt`, `Roles.writers_lt`: less than `n` others, so that no lock call gives up.
-/

namespace Coter.RwLock

inductive Role
  | idle
  | waitsRead
  | waitsWrite
  | reads
  | writes
  deriving DecidableEq, Repr

/-- How often a thread stands in a list. -/
def Once (l : List Nat) (p : Nat → Prop) [DecidablePred p] : Prop :=
  ∀ t, l.count t = if p t then 1 else 0

structure Roles (s : System) (f : Nat → Role) : Prop where
  readers : Once s.readers fun t => f t = .reads
  writers : Once s.writers fun t => f t = .writes
  waitsRead : Once (s.blockedReaders ++ s.wokenReaders) fun t => f t = .waitsRead
  waitsWrite : Once (s.blockedWriters ++ s.wokenWriters) fun t => f t = .waitsWrite

/-! ## Lists with each thread once -/

section Once

variable {l : List Nat} {p : Nat → Prop} [DecidablePred p] {n t : Nat}

theorem Once.mem (h : Once l p) : t ∈ l ↔ p t := by
  rw [← List.count_pos_iff, h t]
  split <;> simp_all

theorem Once.nodup (h : Once l p) : l.Nodup := by
  refine List.nodup_iff_count_le_one.2 fun t => ?_
  rw [h t]
  split <;> omega

/-- Without `t`, less than `n` of the first `n` threads are left. -/
theorem Once.length_lt (h : Once l p) (bounded : ∀ u, p u → u < n) (ht : t < n) (out : ¬ p t) :
    l.length < n := by
  have nodup : (t :: l).Nodup := List.nodup_cons.2 ⟨fun mem => out (h.mem.1 mem), h.nodup⟩
  have below : t :: l ⊆ List.range n := by
    intro u hu
    rw [List.mem_range]
    rcases List.mem_cons.1 hu with rfl | hu
    · exact ht
    · exact bounded u (h.mem.1 hu)
  have := (List.subperm_of_subset nodup below).length_le
  simpa using this

variable {f : Nat → Role} {r r' : Role}

/-- The list of a role that the thread neither leaves nor takes on. -/
theorem once_same (h : Once l fun u => f u = r) (before : f t ≠ r) (after : r' ≠ r) :
    Once l fun u => Function.update f t r' u = r := by
  intro u
  rw [h u]
  by_cases hu : u = t
  · subst hu
    simp [before, after]
  · simp [Function.update_of_ne hu]

theorem once_joins (h : Once l fun u => f u = r) (before : f t ≠ r) :
    Once (t :: l) fun u => Function.update f t r u = r := by
  intro u
  rw [List.count_cons, h u]
  by_cases hu : u = t
  · subst hu
    simp [before]
  · have apart : ¬ t = u := fun e => hu e.symm
    simp [Function.update_of_ne hu, apart]

theorem once_leaves (h : Once l fun u => f u = r) (before : f t = r) (after : r' ≠ r) :
    Once (l.erase t) fun u => Function.update f t r' u = r := by
  intro u
  rw [List.count_erase, h u]
  by_cases hu : u = t
  · subst hu
    simp [before, after]
  · have apart : ¬ t = u := fun e => hu e.symm
    simp [Function.update_of_ne hu, apart]

theorem once_perm {l' : List Nat} (h : Once l p) (perm : l'.Perm l) : Once l' p := by
  intro u
  rw [perm.count_eq, h u]

end Once

/-! ## Sections of the lock -/

section Roles

variable {s s' : System} {f : Nat → Role} {n t : Nat}

theorem Roles.idle (r : Roles s f) (read : f t ≠ .waitsRead) (write : f t ≠ .waitsWrite) :
    s.Idle t := by
  have noRead : t ∉ s.blockedReaders ++ s.wokenReaders := fun mem => read (r.waitsRead.mem.1 mem)
  have noWrite : t ∉ s.blockedWriters ++ s.wokenWriters := fun mem => write (r.waitsWrite.mem.1 mem)
  rw [List.mem_append, not_or] at noRead noWrite
  exact ⟨noRead.1, noWrite.1, noRead.2, noWrite.2⟩

theorem Roles.readers_lt (r : Roles s f) (i : Inv s) (bounded : ∀ u, f u ≠ .idle → u < n)
    (ht : t < n) (small : n < 2 ^ 31) (idle : f t = .idle) : s.lock.state ≠ intMax := by
  have fewer := r.readers.length_lt (fun u hu => bounded u (by rw [hu]; nofun)) ht
    (by rw [idle]; nofun)
  unfold intMax
  rcases i.held with ⟨writing, -⟩ | ⟨reading, -⟩ <;> omega

theorem Roles.writers_lt (r : Roles s f) (bounded : ∀ u, f u ≠ .idle → u < n)
    (ht : t < n) (small : n < 2 ^ 31) (idle : f t = .idle) :
    s.blockedWriters.length + s.wokenWriters.length < uintMax := by
  have fewer := r.waitsWrite.length_lt (fun u hu => bounded u (by rw [hu]; nofun)) ht
    (by rw [idle]; nofun)
  rw [List.length_append] at fewer
  unfold uintMax
  omega

/-- The role after a turn of a wait loop. -/
def Turn.role (waits holds : Role) : Turn → Role
  | .returns _ => holds
  | .waits => waits

theorem afterRdlock_roles (r : Roles s f) (idle : f t = .idle) (room : s.lock.state ≠ intMax) :
    Roles (s.afterRdlock t) (Function.update f t ((rdlock s.lock).1.role .waitsRead .reads)) := by
  have apart {x : Role} (h : .idle ≠ x) : f t ≠ x := idle ▸ h
  unfold System.afterRdlock rdlock
  by_cases blocked : s.lock.state < 0 ∨ s.lock.waitingWriters ≠ 0
  · rw [if_pos blocked]
    constructor
    · exact once_same r.readers (apart nofun) nofun
    · exact once_same r.writers (apart nofun) nofun
    · exact once_joins r.waitsRead (apart nofun)
    · exact once_same r.waitsWrite (apart nofun) nofun
  · rw [if_neg blocked, if_neg room]
    constructor
    · exact once_joins r.readers (apart nofun)
    · exact once_same r.writers (apart nofun) nofun
    · exact once_same r.waitsRead (apart nofun) nofun
    · exact once_same r.waitsWrite (apart nofun) nofun

theorem afterWrlock_roles (r : Roles s f) (idle : f t = .idle)
    (room : s.lock.waitingWriters ≠ uintMax) :
    Roles (s.afterWrlock t) (Function.update f t ((wrlock s.lock).1.role .waitsWrite .writes)) := by
  have apart {x : Role} (h : .idle ≠ x) : f t ≠ x := idle ▸ h
  unfold System.afterWrlock wrlock
  by_cases held : s.lock.state ≠ 0
  · rw [if_pos held, if_neg room]
    constructor
    · exact once_same r.readers (apart nofun) nofun
    · exact once_same r.writers (apart nofun) nofun
    · exact once_same r.waitsRead (apart nofun) nofun
    · exact once_joins r.waitsWrite (apart nofun)
  · rw [if_neg held]
    constructor
    · exact once_same r.readers (apart nofun) nofun
    · exact once_joins r.writers (apart nofun)
    · exact once_same r.waitsRead (apart nofun) nofun
    · exact once_same r.waitsWrite (apart nofun) nofun

theorem wakeReader_roles (r : Roles s f) (h : t ∈ s.blockedReaders) : Roles (s.wakeReader t) f where
  readers := r.readers
  writers := r.writers
  waitsWrite := r.waitsWrite
  waitsRead := by
    refine once_perm r.waitsRead ?_
    exact (List.perm_middle.trans (List.Perm.append_right _ (List.perm_cons_erase h).symm))

theorem wakeWriter_roles (r : Roles s f) (h : t ∈ s.blockedWriters) : Roles (s.wakeWriter t) f where
  readers := r.readers
  writers := r.writers
  waitsRead := r.waitsRead
  waitsWrite := by
    refine once_perm r.waitsWrite ?_
    exact (List.perm_middle.trans (List.Perm.append_right _ (List.perm_cons_erase h).symm))

theorem notify_roles {notice : Notice} {woke : Option Nat} (r : Roles s f)
    (may : s.MayWake notice woke) : Roles (s.notify notice woke) f := by
  cases notice with
  | nobody =>
    rw [notify_nobody]
    exact r
  | signalWriter =>
    cases woke with
    | none => exact r
    | some u => exact wakeWriter_roles r may
  | broadcastReaders => exact ⟨r.readers, r.writers, r.waitsRead, r.waitsWrite⟩

/-- A thread that holds the lock unlocks it. -/
theorem rdunlock_step (i : Inv s) (r : Roles s f) {woke : Option Nat} (reads : f t = .reads)
    (h : step s (.rdunlock t woke) = some s') : Roles s' (Function.update f t .idle) := by
  have apart {x : Role} (h : .reads ≠ x) : f t ≠ x := reads ▸ h
  have mem : t ∈ s.readers := r.readers.mem.2 reads
  have left : Roles { s with readers := s.readers.erase t } (Function.update f t .idle) := by
    constructor
    · exact once_leaves r.readers reads nofun
    · exact once_same r.writers (apart nofun) nofun
    · exact once_same r.waitsRead (apart nofun) nofun
    · exact once_same r.waitsWrite (apart nofun) nofun
  simp only [step] at h
  split at h
  · split at h
    · next notice l hl =>
      split at h
      · next may =>
        cases h
        exact notify_roles ⟨left.readers, left.writers, left.waitsRead, left.waitsWrite⟩ may
      · cases h
    · next code notice l refused hl =>
      have held : 0 < s.lock.state := by
        have := List.length_pos_of_mem mem
        rcases i.held with ⟨-, -, none⟩ | ⟨reading, -⟩
        · rw [none] at this
          cases this
        · omega
      unfold rdunlock at hl
      rw [if_neg (by omega)] at hl
      dsimp only at hl
      split at hl <;> cases hl <;> exact absurd rfl refused
  · cases h

theorem wrunlock_step (i : Inv s) (r : Roles s f) {woke : Option Nat} (writes : f t = .writes)
    (h : step s (.wrunlock t woke) = some s') : Roles s' (Function.update f t .idle) := by
  have apart {x : Role} (h : .writes ≠ x) : f t ≠ x := writes ▸ h
  have mem : t ∈ s.writers := r.writers.mem.2 writes
  have left : Roles { s with writers := s.writers.erase t } (Function.update f t .idle) := by
    constructor
    · exact once_same r.readers (apart nofun) nofun
    · exact once_leaves r.writers writes nofun
    · exact once_same r.waitsRead (apart nofun) nofun
    · exact once_same r.waitsWrite (apart nofun) nofun
  simp only [step] at h
  split at h
  · split at h
    · next notice l hl =>
      split at h
      · next may =>
        cases h
        exact notify_roles ⟨left.readers, left.writers, left.waitsRead, left.waitsWrite⟩ may
      · cases h
    · next code notice l refused hl =>
      have held : s.lock.state = -1 := by
        rcases i.held with ⟨writing, -⟩ | ⟨-, none⟩
        · exact writing
        · rw [none] at mem
          cases mem
      unfold wrunlock at hl
      rw [if_neg (not_not.2 held)] at hl
      dsimp only at hl
      split at hl <;> cases hl <;> exact absurd rfl refused
  · cases h

/-- A thread that holds the lock for writing shares it with nobody. -/
theorem Roles.alone (i : Inv s) (r : Roles s f) {u : Nat} (writes : f t = .writes) (apart : t ≠ u) :
    f u ≠ .reads ∧ f u ≠ .writes := by
  have mem : t ∈ s.writers := r.writers.mem.2 writes
  rcases i.held with ⟨-, single, none⟩ | ⟨-, none⟩
  · obtain ⟨x, hx⟩ := List.length_eq_one_iff.1 single
    have only (v : Nat) (hv : f v = .writes) : v = x := by
      have := r.writers.mem.2 hv
      rw [hx] at this
      exact List.mem_singleton.1 this
    constructor
    · intro reads
      have := r.readers.mem.2 reads
      rw [none] at this
      cases this
    · intro writes'
      exact apart ((only t writes).trans (only u writes').symm)
  · rw [none] at mem
    cases mem

/-! ## Lock calls -/

theorem rdlock_step (i : Inv s) (r : Roles s f) (bounded : ∀ u, f u ≠ .idle → u < n) (ht : t < n)
    (small : n < 2 ^ 31) (idle : f t = .idle) (h : step s (.rdlock t) = some s') :
    Roles s' (Function.update f t ((rdlock s.lock).1.role .waitsRead .reads)) := by
  simp only [step] at h
  split at h <;> cases h
  exact afterRdlock_roles r idle (r.readers_lt i bounded ht small idle)

theorem wrlock_step (i : Inv s) (r : Roles s f) (bounded : ∀ u, f u ≠ .idle → u < n) (ht : t < n)
    (small : n < 2 ^ 31) (idle : f t = .idle) (h : step s (.wrlock t) = some s') :
    Roles s' (Function.update f t ((wrlock s.lock).1.role .waitsWrite .writes)) := by
  simp only [step] at h
  split at h <;> cases h
  have fewer := r.writers_lt bounded ht small idle
  refine afterWrlock_roles r idle ?_
  rw [i.waiting]
  omega

/-- Of two lists together, a thread leaves the second. -/
theorem once_leaves_woken {blocked woken : List Nat} {r₀ r₁ : Role}
    (h : Once (blocked ++ woken) fun u => f u = r₀) (before : f t = r₀) (after : r₁ ≠ r₀)
    (mem : t ∈ woken) :
    Once (blocked ++ woken.erase t) fun u => Function.update f t r₁ u = r₀ := by
  refine once_perm (once_leaves h before after) ?_
  refine List.Perm.cons_inv (a := t) ?_
  refine List.Perm.trans ?_ (List.perm_cons_erase (List.mem_append_right _ mem))
  exact List.perm_middle.symm.trans (List.Perm.append_left _ (List.perm_cons_erase mem).symm)

theorem bounded_update (bounded : ∀ u, f u ≠ .idle → u < n) :
    ∀ u, Function.update f t .idle u ≠ .idle → u < n := by
  intro u hu
  rw [Function.update_apply] at hu
  split at hu
  · exact absurd rfl hu
  · exact bounded u hu

/-- A reader that is back from its wait tries again. -/
theorem resumeReader_step (i : Inv s) (r : Roles s f) (bounded : ∀ u, f u ≠ .idle → u < n)
    (small : n < 2 ^ 31) (waits : f t = .waitsRead) (h : step s (.resumeReader t) = some s') :
    Roles s' (Function.update f t ((rdlock s.lock).1.role .waitsRead .reads)) := by
  have apart {x : Role} (h : .waitsRead ≠ x) : f t ≠ x := waits ▸ h
  simp only [step] at h
  split at h
  · next mem =>
    cases h
    have back : Roles { s with wokenReaders := s.wokenReaders.erase t } (Function.update f t .idle) := by
      constructor
      · exact once_same r.readers (apart (by decide)) (by decide)
      · exact once_same r.writers (apart (by decide)) (by decide)
      · exact once_leaves_woken r.waitsRead waits (by decide) mem
      · exact once_same r.waitsWrite (apart (by decide)) (by decide)
    have inv : Inv { s with wokenReaders := s.wokenReaders.erase t } :=
      ⟨i.held, i.waiting, i.small, i.writer, i.reader⟩
    have ht : t < n := bounded t (by rw [waits]; decide)
    have idle : Function.update f t .idle t = .idle := Function.update_self _ _ _
    have room := back.readers_lt inv (bounded_update bounded) ht small idle
    have done := afterRdlock_roles back idle room
    rwa [Function.update_idem] at done
  · cases h

/-- A writer that is back from its wait tries again. -/
theorem resumeWriter_step (i : Inv s) (r : Roles s f) (bounded : ∀ u, f u ≠ .idle → u < n)
    (small : n < 2 ^ 31) (waits : f t = .waitsWrite) (h : step s (.resumeWriter t) = some s') :
    Roles s' (Function.update f t ((wrlock (unwait s.lock)).1.role .waitsWrite .writes)) := by
  have apart {x : Role} (h : .waitsWrite ≠ x) : f t ≠ x := waits ▸ h
  simp only [step] at h
  split at h
  · next mem =>
    cases h
    have back : Roles { s with
        lock := unwait s.lock
        wokenWriters := s.wokenWriters.erase t } (Function.update f t .idle) := by
      constructor
      · exact once_same r.readers (apart (by decide)) (by decide)
      · exact once_same r.writers (apart (by decide)) (by decide)
      · exact once_same r.waitsRead (apart (by decide)) (by decide)
      · exact once_leaves_woken r.waitsWrite waits (by decide) mem
    have ht : t < n := bounded t (by rw [waits]; decide)
    have idle : Function.update f t .idle t = .idle := Function.update_self _ _ _
    have fewer := back.writers_lt (bounded_update bounded) ht small idle
    have one := List.length_pos_of_mem mem
    have waiting := i.waiting
    have room : (unwait s.lock).waitingWriters ≠ uintMax := by
      rw [unwait_waiting (by omega) i.small]
      dsimp only at fewer
      rw [List.length_erase_of_mem mem] at fewer
      omega
    have done := afterWrlock_roles back idle room
    rwa [Function.update_idem] at done
  · cases h

end Roles

end Coter.RwLock
