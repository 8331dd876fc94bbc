import Coter.Thread.ThPoolLists

/-!
# The waiters on `slot_cond_`

Submitters wait on it for room in the queue, and `ct_thpool_destroy` for the last
worker and the last of them. Whoever is blocked there still has a reason to wait:

* `Unstranded`: the reasons;
* `step_unstranded`: every step keeps them, or wakes all waiters;
* `slots_unstranded`: whole runs.
-/

namespace Coter.ThPool

/-- A submitter that is blocked waits for room in a full and open queue, and a blocked
`ct_thpool_destroy` for a worker or a submitter. Once it waits no longer, no submitter
is counted as blocked. -/
structure Unstranded (cfg : Config) (s : State) : Prop where
  submitters : ∀ t, s.submits t = .blocked →
    s.closed = false ∧ s.queuedCount = cfg.maxTasks ∧ 0 < cfg.maxTasks
  destroyer : s.destroy = .blocked → 0 < s.liveCount ∨ 0 < s.blockedCount
  released : s.destroy = .joining ∨ s.destroy = .done → s.blockedCount = 0

/-- Nobody is blocked on `slot_cond_`. -/
def Clear (s : State) : Prop := (∀ t, s.submits t ≠ .blocked) ∧ s.destroy ≠ .blocked

variable {cfg : Config} {s s' : State}

theorem clear_broadcast (s : State) : Clear s.broadcastSlot := by
  constructor
  · intro t h
    simp only [State.broadcastSlot] at h
    cases hpc : s.submits t <;> simp [hpc, SubmitPc.wake] at h
  · intro h
    simp only [State.broadcastSlot] at h
    cases hpc : s.destroy <;> simp [hpc, DestroyPc.wake] at h

theorem Clear.unstranded (c : Clear s)
    (released : s.destroy = .joining ∨ s.destroy = .done → s.blockedCount = 0) :
    Unstranded cfg s where
  submitters t h := absurd h (c.1 t)
  destroyer h := absurd h c.2
  released := released

/-- A step after which nobody else is blocked, and which leaves alone what the blocked
threads wait for. -/
theorem Unstranded.keep (h : Unstranded cfg s)
    (submits : ∀ t, s'.submits t = .blocked → s.submits t = .blocked)
    (destroy : s'.destroy = .blocked → s.destroy = .blocked)
    (ended : s'.destroy = .joining ∨ s'.destroy = .done → s.destroy = .joining ∨ s.destroy = .done)
    (closed : s'.closed = s.closed) (queued : s'.queuedCount = s.queuedCount)
    (live : s'.liveCount = s.liveCount) (blocked : s'.blockedCount = s.blockedCount) :
    Unstranded cfg s' where
  submitters t ht := by
    rw [closed, queued]
    exact h.submitters t (submits t ht)
  destroyer hd := by
    rw [live, blocked]
    exact h.destroyer (destroy hd)
  released hd := by
    rw [blocked]
    exact h.released (ended hd)

theorem Unstranded.setSubmit (h : Unstranded cfg s) {t : Nat} {pc : SubmitPc}
    (hpc : pc ≠ .blocked) : Unstranded cfg (s.setSubmit t pc) := by
  refine h.keep ?_ id id rfl rfl rfl rfl
  intro u hu
  by_cases hut : u = t
  · rw [hut, setSubmit_self] at hu
    exact absurd hu hpc
  · rwa [setSubmit_of_ne s hut] at hu

theorem Unstranded.broadcastSlot (h : Unstranded cfg s) : Unstranded cfg s.broadcastSlot := by
  refine (clear_broadcast s).unstranded fun hd => h.released ?_
  simp only [State.broadcastSlot] at hd
  rwa [wake_destroy (by decide) (by decide), wake_destroy (by decide) (by decide)] at hd

/-! ## Submitters -/

/-- An open pool is not being destroyed. -/
theorem Sound.begun (h : Sound cfg s) (isOpen : s.closed = false) :
    s.destroy = .idle ∨ s.destroy = .called := by
  by_contra late
  rw [not_or] at late
  rw [h.closing late.1 late.2] at isOpen
  cases isOpen

theorem Unstranded.unblock (h : Unstranded cfg s) : Unstranded cfg (unblock s) := by
  have fewer (hd : s.destroy = .joining ∨ s.destroy = .done) : s.blockedCount - 1 = 0 := by
    rw [h.released hd]
  unfold ThPool.unblock
  dsimp only
  split
  · refine (clear_broadcast _).unstranded fun hd => fewer ?_
    simp only [State.broadcastSlot] at hd
    rwa [wake_destroy (by decide) (by decide), wake_destroy (by decide) (by decide)] at hd
  · rename_i others
    exact ⟨h.submitters, fun _ => Or.inr (Nat.pos_of_ne_zero others), fewer⟩

/-- Where there is room, no submitter is blocked. -/
theorem Unstranded.unblocked (h : Unstranded cfg s) (room : Room cfg s) (t : Nat) :
    s.submits t ≠ .blocked := by
  intro ht
  obtain ⟨-, full, some⟩ := h.submitters t ht
  rcases room with unlimited | less
  · omega
  · omega

theorem enqueue_parts (woke : Option Nat) (t : Nat) (s : State) :
    (∀ u, (enqueue woke t s).submits u = .blocked → s.submits u = .blocked) ∧
      (enqueue woke t s).destroy = s.destroy := by
  have submits (u : Nat) : (enqueue woke t s).submits u =
      if u = t then .returned .normal else s.submits u := by
    cases woke <;> rfl
  refine ⟨?_, by cases woke <;> rfl⟩
  intro u hu
  rw [submits] at hu
  split at hu
  · cases hu
  · exact hu

/-- A submitter's section, in which it enters the queue, is refused or blocks. -/
theorem Unstranded.submitTurn (h : Unstranded cfg s) (hs : Sound cfg s) (answer : Creation)
    (woke : Option Nat) (t : Nat) : Unstranded cfg (submitTurn cfg answer woke t s) := by
  have turn := submitTurn_turn cfg answer woke t s
  generalize ThPool.submitTurn cfg answer woke t s = u at turn ⊢
  have early (isOpen : s.closed = false) {d : DestroyPc} (hd : d = s.destroy) :
      d ≠ .blocked ∧ ¬ (d = .joining ∨ d = .done) := by
    rcases hs.begun isOpen with hb | hb <;> simp [hd, hb]
  have enqueued {u : State} (isOpen : s.closed = false) (submits : u.submits = s.submits)
      (destroy : u.destroy = s.destroy) (room : Room cfg s) :
      Unstranded cfg (enqueue woke t u) := by
    obtain ⟨hsubmits, hdestroy⟩ := enqueue_parts woke t u
    have late := early isOpen (hdestroy.trans destroy)
    refine Clear.unstranded ⟨?_, late.1⟩ fun hd => absurd hd late.2
    intro v hv
    have blocked := hsubmits v hv
    rw [submits] at blocked
    exact h.unblocked room v blocked
  cases turn with
  | created isOpen room => exact enqueued isOpen rfl rfl room
  | noThread => exact h.broadcastSlot.setSubmit (by simp)
  | enqueued _ isOpen room => exact enqueued isOpen rfl rfl room
  | blocked _ isOpen room =>
    have late := early isOpen (d := s.destroy) rfl
    refine ⟨?_, fun hd => absurd hd late.1, fun hd => absurd hd late.2⟩
    intro u _
    simp only [Room, not_or, Nat.not_lt] at room
    have bound := hs.room room.1
    refine ⟨isOpen, ?_, ?_⟩
    · show s.queuedCount = cfg.maxTasks
      omega
    · omega
  | closed | noMemory | overload => exact h.setSubmit (by simp)

/-! ## Workers -/

theorem Unstranded.leave (h : Unstranded cfg s) (w : Nat) : Unstranded cfg (leave w s) := by
  have clear := clear_broadcast s
  exact Clear.unstranded ⟨clear.1, clear.2⟩ h.broadcastSlot.released

theorem Unstranded.setWorker (h : Unstranded cfg s) (w : Nat) (pc : WorkerPc) :
    Unstranded cfg (s.setWorker w pc) := ⟨h.submitters, h.destroyer, h.released⟩

/-- With nobody counted as blocked, no submitter is. -/
theorem Blocked.none (hb : Blocked s) (zero : s.blockedCount = 0) (t : Nat) :
    s.submits t ≠ .blocked := by
  intro ht
  obtain ⟨ts, hmem, hcard⟩ := hb
  rw [zero] at hcard
  have member : t ∈ ts := (hmem t).2 (by rw [ht]; rfl)
  rw [Finset.card_eq_zero.1 hcard.symm] at member
  exact absurd member (Finset.notMem_empty t)

/-- A worker's section: it makes room, goes to wait, or retires. -/
theorem Unstranded.workerTurn (h : Unstranded cfg s) (hb : Blocked s) (timedOut : Bool) (w : Nat) :
    Unstranded cfg (workerTurn timedOut w s) := by
  unfold ThPool.workerTurn
  cases hq : s.queue with
  | nil =>
    dsimp only
    split
    · unfold retire
      cases s.retired with
      | nil => exact h.leave w
      | cons v rest => exact ⟨h.submitters, h.destroyer, h.released⟩
    · exact ⟨h.submitters, h.destroyer, h.released⟩
  | cons t rest =>
    dsimp only
    split
    · apply Unstranded.setWorker
      exact Clear.unstranded (clear_broadcast _) h.broadcastSlot.released
    · rename_i none
      have zero : s.blockedCount = 0 := Nat.eq_zero_of_not_pos none
      exact ⟨fun t ht => absurd ht (hb.none zero t), h.destroyer, h.released⟩

/-! ## Closing and destroying -/

theorem Unstranded.close (h : Unstranded cfg s) : Unstranded cfg (close s) := by
  have closed := clear_broadcast ({ s with closed := true }.broadcastTask)
  exact Clear.unstranded closed h.broadcastSlot.released

theorem Unstranded.destroyTurn (h : Unstranded cfg s) : Unstranded cfg (destroyTurn s) := by
  unfold ThPool.destroyTurn
  split
  · rename_i busy
    exact ⟨h.submitters, fun _ => busy, by simp⟩
  · rename_i idle
    refine ⟨h.submitters, by simp, fun _ => ?_⟩
    show s.blockedCount = 0
    omega

/-! ## Runs -/

theorem step_unstranded {l : Label} (h : Unstranded cfg s) (hs : Sound cfg s) (hb : Blocked s)
    (hstep : step cfg s l = some s') : Unstranded cfg s' := by
  obtain ⟨-, does⟩ := step_does hstep
  cases does with
  | call t early pc _ hto => exact h.setSubmit (by rcases hto with rfl | rfl | rfl <;> simp)
  | enter t answer woke _ _ => exact h.submitTurn hs answer woke t
  | retry t answer woke _ _ => exact h.unblock.submitTurn hs.unblock answer woke t
  | wakeSubmit t _ => exact h.setSubmit (by simp)
  | test w _ => exact h.workerTurn hb false w
  | back w timedOut _ =>
    have unwaited : Unstranded cfg (unwait w s) := ⟨h.submitters, h.destroyer, h.released⟩
    exact unwaited.workerTurn hb timedOut w
  | wakeWorker w _ | timeout w _ _ | resume w _ => exact h.setWorker w _
  | finish w t _ => exact ⟨h.submitters, h.destroyer, h.released⟩
  | join w v stale _ _ => exact (h.setWorker v _).setWorker w _
  | leave w _ => exact h.leave w
  | close => exact h.close
  | callDestroy _ => exact ⟨h.submitters, by simp, by simp⟩
  | destroyClose _ => exact ⟨h.close.submitters, by simp, by simp⟩
  | destroyTest _ => exact h.destroyTurn
  | wakeDestroy _ => exact ⟨h.submitters, by simp, by simp⟩
  | release hfrom _ => exact ⟨h.submitters, by simp, fun _ => h.released (Or.inl hfrom)⟩
  | joinRetired v rest _ _ _ => exact ⟨h.submitters, h.destroyer, h.released⟩

theorem init_unstranded (cfg : Config) : Unstranded cfg init where
  submitters t h := by simp [init] at h
  destroyer h := by simp [init] at h
  released _ := rfl

theorem init_blocked : Blocked init := by
  refine ⟨∅, ?_, rfl⟩
  intro t
  simp [init, SubmitPc.waits]

/-- **Nobody is stranded on `slot_cond_`.** Over every run of a pool, whenever its lock is
free, a submitter that is blocked and was not woken waits for room in a full queue of an
open pool, and a blocked `ct_thpool_destroy` for a worker or a submitter; and it never
goes on to release the pool while a submitter is counted as blocked. -/
theorem slots_unstranded (cfg : Config) (ls : List Label) :
    Lib.Lts.Throughout (step cfg) (Unstranded cfg) init ls := by
  refine Lib.Lts.throughout_of_invariant (I := fun s => Unstranded cfg s ∧ Sound cfg s ∧ Blocked s)
    ?_ (fun _ h => h.1) ⟨init_unstranded cfg, init_sound cfg, init_blocked⟩ ls
  rintro s l s' ⟨h, hs, hb⟩ hstep
  exact ⟨step_unstranded h hs hb hstep, step_sound hs hstep, (step_submits hb hstep).2⟩

end Coter.ThPool
