import Coter.Thread.ThPoolLists

/-!
# Whether the pool creates enough workers

`ct_thpool_submit` creates a worker where `waiting_count_` is zero. A worker that was
signalled is counted there until it has the lock again, so a submission can take a worker
that has a task to take already for one that waits for its own.

* `Tally`: what a step does to the tasks queued, the idle workers and the live ones;
* `Finds`, `Timely`: when a submission is accepted with a worker left for it;
* `spawned_iff`: the runs in which there are enough workers.
-/

namespace Coter.ThPool

open Lib.Counting

/-- The worker is neither running a task nor retiring. -/
def WorkerPc.idles : WorkerPc → Bool
  | .starting | .waiting | .woken _ | .ready => true
  | .absent | .running _ | .joining _ | .exited | .joined => false

/-- How many live workers are neither running a task nor retiring. -/
def State.idle (s : State) : Nat := s.live.countP fun w => (s.workers w).idles

/-- No further worker may be created. -/
def Full (cfg : Config) (s : State) : Prop := cfg.capacity ≠ 0 ∧ s.liveCount = cfg.capacity

/-- There is an idle worker for each task in the queue, unless the pool is full. -/
def Enough (cfg : Config) (s : State) : Prop := s.queuedCount ≤ s.idle ∨ Full cfg s

instance (cfg : Config) (s : State) : Decidable (Full cfg s) := by unfold Full; infer_instance

instance (cfg : Config) (s : State) : Decidable (Enough cfg s) := by unfold Enough; infer_instance

/-- The step is a submission that returns 0. -/
def Label.returnsZero (s' : State) : Label → Bool
  | .submit t _ _ => s'.submits t == .returned .normal
  | _ => false

/-- A submission that returns 0 leaves enough workers behind. -/
def Spawned (cfg : Config) (s : State) (l : Label) : Prop :=
  ∀ s' ∈ step cfg s l, l.returnsZero s' = true → Enough cfg s'

instance (cfg : Config) (s : State) (l : Label) : Decidable (Spawned cfg s l) :=
  match h : step cfg s l with
  | none => isTrue (by simp [Spawned, h])
  | some s' =>
    decidable_of_iff (l.returnsZero s' = true → Enough cfg s') (by simp [Spawned, h])

/-- An accepted submission creates a worker, and that is enough for the tasks queued
before or fills the pool; or it creates none, and an idle worker is left over or the
pool is full. -/
def Finds (cfg : Config) (s : State) : Label → Prop
  | .submit _ answer _ => s.accepts cfg answer = true →
    if Spawns cfg s then s.queuedCount ≤ s.idle ∨ s.liveCount + 1 = cfg.capacity
    else s.queuedCount < s.idle ∨ Full cfg s
  | _ => True

/-- An accepted submission creates a worker, or finds an idle one left over or the pool
full; and no worker ends its retirement in a full pool with more tasks queued than
workers idle. -/
def Timely (cfg : Config) (s : State) : Label → Prop
  | .submit _ answer _ => s.accepts cfg answer = true →
    Spawns cfg s ∨ s.queuedCount < s.idle ∨ Full cfg s
  | .leave _ => Full cfg s → s.queuedCount ≤ s.idle
  | _ => True

variable {cfg : Config} {s s' : State}

/-! ## Counting idle workers -/

@[simp] theorem wake_idles (pc : WorkerPc) : pc.wake.idles = pc.idles := by cases pc <;> rfl

theorem idle_setWorker {w : Nat} (nodup : s.live.Nodup) (hw : w ∈ s.live) (pc : WorkerPc) :
    (s.setWorker w pc).idle + (if (s.workers w).idles then 1 else 0) =
      s.idle + (if pc.idles then 1 else 0) :=
  countP_replace nodup WorkerPc.idles s.workers hw pc

/-- A live worker moves and stays idle, or stays busy. -/
theorem idle_same {w : Nat} (pc : WorkerPc) (nodup : s.live.Nodup) (hw : w ∈ s.live)
    (same : pc.idles = (s.workers w).idles) : (s.setWorker w pc).idle = s.idle := by
  have := idle_setWorker nodup hw pc
  rw [same] at this
  omega

theorem idle_off {w : Nat} {pc : WorkerPc} (hw : w ∉ s.live) : (s.setWorker w pc).idle = s.idle :=
  countP_replace_off WorkerPc.idles s.workers hw pc

/-- Workers that are woken stay idle. -/
theorem idle_broadcast (s : State) : s.broadcastTask.idle = s.idle := by
  apply List.countP_congr
  intro w _
  simp [State.broadcastTask]

theorem idle_signal (s : State) (woke : Option Nat) : (s.signalTask woke).idle = s.idle := by
  cases woke with
  | none => rfl
  | some w =>
    apply List.countP_congr
    intro v _
    simp only [State.signalTask, State.setWorker]
    by_cases hv : v = w
    · simp [hv]
    · simp [hv]

theorem idle_created (h : Sound cfg s) : (workerCreate .granted s).2.idle = s.idle + 1 := by
  have absent := (h.lists.absent s.created).2 (Nat.le_refl _)
  have off : s.created ∉ s.live := by simp [h.lists.onLive, absent, WorkerPc.onLive]
  have same := countP_replace_off WorkerPc.idles s.workers off .starting
  simp only [workerCreate, State.idle, State.setWorker, List.countP_append, same,
    List.countP_singleton]
  rfl

/-- What a step adds to the tasks queued, the idle workers and the live ones. -/
structure Tally (s s' : State) (tasks idle live : Nat) : Prop where
  tasks : s'.queuedCount = s.queuedCount + tasks
  idle : s'.idle = s.idle + idle
  live : s'.liveCount = s.liveCount + live

theorem Tally.enough (t : Tally s s' 0 0 0) (h : Enough cfg s) : Enough cfg s' := by
  unfold Enough Full at *
  rw [t.tasks, t.idle, t.live]
  exact h

/-- A section of `ct_thpool_submit`, by whether it accepts the task. -/
theorem submitTurn_tally (h : Sound cfg s) (answer : Creation) (woke : Option Nat) (t : Nat) :
    ((submitTurn cfg answer woke t s).submits t = .returned .normal ↔
      s.accepts cfg answer = true) ∧
    Tally s (submitTurn cfg answer woke t s) (if s.accepts cfg answer = true then 1 else 0)
      (if s.accepts cfg answer = true ∧ Spawns cfg s then 1 else 0)
      (if s.accepts cfg answer = true ∧ Spawns cfg s then 1 else 0) := by
  have enqueued (u : State) : (enqueue woke t u).submits t = .returned .normal ∧
      (enqueue woke t u).queuedCount = u.queuedCount + 1 ∧ (enqueue woke t u).idle = u.idle ∧
      (enqueue woke t u).liveCount = u.liveCount := by
    refine ⟨setSubmit_self .., ?_, ?_, ?_⟩
    · cases woke <;> rfl
    · exact idle_signal { u with queue := u.queue ++ [t], queuedCount := u.queuedCount + 1 } woke
    · cases woke <;> rfl
  have refused (rc : ErrorCode) (failed : rc ≠ .normal) (no : s.accepts cfg answer = false) :
      ((s.setSubmit t (.returned rc)).submits t = .returned .normal ↔
        s.accepts cfg answer = true) ∧
      Tally s (s.setSubmit t (.returned rc)) (if s.accepts cfg answer = true then 1 else 0)
        (if s.accepts cfg answer = true ∧ Spawns cfg s then 1 else 0)
        (if s.accepts cfg answer = true ∧ Spawns cfg s then 1 else 0) := by
    rw [setSubmit_self]
    simp only [no]
    exact ⟨by simp [failed], rfl, rfl, rfl⟩
  have turn := submitTurn_turn cfg answer woke t s
  generalize submitTurn cfg answer woke t s = u at turn ⊢
  cases turn with
  | closed _ closed => exact refused .closed (by simp) (by simp [State.accepts, closed])
  | created isOpen room spawns =>
    have accepted : s.accepts cfg .granted = true := by simp [State.accepts, isOpen, room]
    obtain ⟨hsubmit, htasks, hidle, hlive⟩ := enqueued (workerCreate .granted s).2
    simp only [accepted, spawns, and_self, if_true]
    exact ⟨iff_of_true hsubmit trivial, htasks, hidle.trans (idle_created h), hlive⟩
  | noMemory _ _ spawns => exact refused .memAlloc (by simp) (by simp [State.accepts, spawns])
  | noThread _ _ spawns =>
    have refused : s.accepts cfg .noThread = false := by simp [State.accepts, spawns]
    simp only [setSubmit_self, refused]
    exact ⟨by simp, rfl, rfl, rfl⟩
  | enqueued _ isOpen room spawns =>
    have accepted : s.accepts cfg answer = true := by
      simp [State.accepts, isOpen, room, spawns]
    obtain ⟨hsubmit, htasks, hidle, hlive⟩ := enqueued s
    simp only [accepted, spawns, and_false, if_true, if_false]
    exact ⟨iff_of_true hsubmit trivial, htasks, hidle, hlive⟩
  | overload _ _ room => exact refused .overload (by simp) (by simp [State.accepts, room])
  | blocked _ _ room =>
    have refused : s.accepts cfg answer = false := by simp [State.accepts, room]
    simp only [setSubmit_self, refused]
    exact ⟨by simp, rfl, rfl, rfl⟩

theorem unblock_tally (s : State) : Tally s (unblock s) 0 0 0 := by
  obtain ⟨-, -, same, -⟩ := unblock_parts s
  refine ⟨same.queuedCount, ?_, same.liveCount⟩
  rw [State.idle, same.live, same.workers]
  rfl

/-- A submission, by whether it is accepted and whether it creates a worker. -/
theorem submit_tally (h : Sound cfg s) {t : Nat} {answer : Creation} {woke : Option Nat}
    (hstep : step cfg s (.submit t answer woke) = some s') :
    ((Label.submit t answer woke).returnsZero s' = true ↔ s.accepts cfg answer = true) ∧
    Tally s s' (if s.accepts cfg answer = true then 1 else 0)
      (if s.accepts cfg answer = true ∧ Spawns cfg s then 1 else 0)
      (if s.accepts cfg answer = true ∧ Spawns cfg s then 1 else 0) := by
  obtain ⟨-, does⟩ := step_does hstep
  cases does with
  | enter _ _ _ _ _ =>
    obtain ⟨returns, tally⟩ := submitTurn_tally h answer woke t
    exact ⟨beq_iff_eq.trans returns, tally⟩
  | retry _ _ _ _ _ =>
    obtain ⟨returns, tally⟩ := submitTurn_tally h.unblock answer woke t
    have same := unblock_tally s
    simp only [unblock_accepts, unblock_spawns] at returns tally
    refine ⟨beq_iff_eq.trans returns, ?_, ?_, ?_⟩
    · rw [tally.tasks, same.tasks, Nat.add_zero]
    · rw [tally.idle, same.idle, Nat.add_zero]
    · rw [tally.live, same.live, Nat.add_zero]

/-! ## What a worker does -/

theorem idle_leave (h : Sound cfg s) {w : Nat} (hw : (s.workers w).onLive = true)
    (busy : (s.workers w).idles = false) : (leave w s).idle = s.idle := by
  have member : w ∈ s.live := (h.lists.onLive w).2 hw
  have off : w ∉ s.live.erase w := h.lists.nodup.not_mem_erase
  have erased := countP_erase_mem (fun v => (s.workers v).idles) member
  have same := countP_replace_off WorkerPc.idles s.workers off .exited
  simp only [busy, Bool.false_eq_true, if_false, Nat.add_zero] at erased
  exact same.trans erased

theorem retire_tasks (w : Nat) (s : State) : (retire w s).queuedCount = s.queuedCount := by
  unfold retire
  cases s.retired <;> rfl

/-- A worker that tests the queue takes one task, or finds none. -/
theorem workerTurn_enough (h : Sound cfg s) {w : Nat} (hw : (s.workers w).AtTest) (timedOut : Bool)
    (enough : Enough cfg s) : Enough cfg (workerTurn timedOut w s) := by
  have queued := h.queued
  unfold workerTurn
  cases hq : s.queue with
  | nil =>
    rw [hq, List.length_nil] at queued
    left
    dsimp only
    split
    · rw [retire_tasks, queued]
      exact Nat.zero_le _
    · show s.queuedCount ≤ _
      rw [queued]
      exact Nat.zero_le _
  | cons t rest =>
    have member : w ∈ s.live := (h.lists.onLive w).2 hw.plain.1
    have moved := idle_setWorker h.lists.nodup member (.running t)
    have idle : (s.workers w).idles = true := by rcases hw with hw | hw <;> rw [hw] <;> rfl
    simp only [idle, if_true, show (WorkerPc.running t).idles = false from rfl,
      Bool.false_eq_true, if_false, Nat.add_zero] at moved
    have taken : s.queuedCount - 1 ≤ (s.setWorker w (.running t)).idle ∨ Full cfg s := by
      rcases enough with less | full
      · left
        omega
      · exact Or.inr full
    dsimp only
    split <;> exact taken

/-- The steps of the pool that submit nothing and end no retirement. -/
theorem quiet_enough {l : Label} (h : Sound cfg s) (hstep : step cfg s l = some s')
    (notSubmit : ∀ t answer woke, l ≠ .submit t answer woke) (notLeave : ∀ w, l ≠ .leave w)
    (enough : Enough cfg s) : Enough cfg s' := by
  have nodup := h.lists.nodup
  have live {w : Nat} (hw : (s.workers w).onLive = true) : w ∈ s.live := (h.lists.onLive w).2 hw
  obtain ⟨-, does⟩ := step_does hstep
  cases does with
  | enter t answer woke _ _ => exact absurd rfl (notSubmit t answer woke)
  | retry t answer woke _ _ => exact absurd rfl (notSubmit t answer woke)
  | leave w _ => exact absurd rfl (notLeave w)
  | test w hfrom => exact workerTurn_enough h hfrom false enough
  | back w timedOut hfrom =>
    have unwaited : Enough cfg (unwait w s) := by
      have same := idle_same .ready nodup (live (by rw [hfrom]; rfl)) (by rw [hfrom]; rfl)
      exact Tally.enough ⟨rfl, same, rfl⟩ enough
    exact workerTurn_enough (h.unwait hfrom) (.inr (by simp [unwait, State.setWorker])) timedOut
      unwaited
  | wakeWorker w hfrom | timeout w hfrom _ | resume w hfrom =>
    have member := live (w := w) (by rw [hfrom]; rfl)
    exact Tally.enough ⟨rfl, idle_same _ nodup member (by rw [hfrom]; rfl), rfl⟩ enough
  | finish w t hfrom =>
    have moved := idle_setWorker nodup (live (w := w) (by rw [hfrom]; rfl)) .ready
    simp only [hfrom, show (WorkerPc.running t).idles = false from rfl,
      show WorkerPc.ready.idles = true from rfl, Bool.false_eq_true, if_false, if_true,
      Nat.add_zero] at moved
    rcases enough with less | full
    · left
      show s.queuedCount ≤ (s.setWorker w .ready).idle
      omega
    · exact Or.inr full
  | join w v stale hfrom hv =>
    have off : v ∉ s.live := by simp [h.lists.onLive, hv, WorkerPc.onLive]
    have apart : w ≠ v := by
      rintro rfl
      rw [hfrom] at hv
      cases hv
    have kept : (s.setWorker v .joined).workers w = .joining (v :: stale) := by
      simp [State.setWorker, apart, hfrom]
    have same := idle_same (s := s.setWorker v .joined) (.joining stale) nodup
      (live (w := w) (by rw [hfrom]; rfl)) (by rw [kept]; rfl)
    exact Tally.enough ⟨rfl, same.trans (idle_off off), rfl⟩ enough
  | close | destroyClose =>
    exact Tally.enough ⟨rfl, idle_broadcast { s with closed := true }, rfl⟩ enough
  | destroyTest _ =>
    unfold destroyTurn
    split <;> exact enough
  | joinRetired v rest _ _ hv =>
    have off : v ∉ s.live := by simp [h.lists.onLive, hv, WorkerPc.onLive]
    exact Tally.enough ⟨rfl, idle_off off, rfl⟩ enough
  | call | wakeSubmit | callDestroy | wakeDestroy | release => exact enough

/-! ## Runs -/

/-- A submission leaves enough workers exactly if it finds them. -/
theorem spawned_step {l : Label} (h : Sound cfg s) (hstep : step cfg s l = some s') :
    Spawned cfg s l ↔ Finds cfg s l := by
  have single : Spawned cfg s l ↔ (l.returnsZero s' = true → Enough cfg s') := by
    simp [Spawned, hstep]
  rw [single]
  cases l with
  | submit t answer woke =>
    obtain ⟨returns, tally⟩ := submit_tally h hstep
    rw [returns]
    refine imp_congr_right fun accepted => ?_
    obtain ⟨tasks, idle, live⟩ := tally
    simp only [accepted, if_true, true_and] at tasks idle live
    unfold Enough Full
    rw [tasks, idle, live]
    split
    · omega
    · omega
  | _ => simp [Label.returnsZero, Finds]

/-- A timely step keeps enough workers. -/
theorem timely_enough {l : Label} (h : Sound cfg s) (enough : Enough cfg s)
    (timely : Timely cfg s l) (hstep : step cfg s l = some s') : Enough cfg s' := by
  cases l with
  | submit t answer woke =>
    obtain ⟨tasks, idle, live⟩ := (submit_tally h hstep).2
    by_cases accepted : s.accepts cfg answer = true
    · have found := timely accepted
      simp only [accepted, if_true, true_and] at tasks idle live
      unfold Enough Full at *
      rw [tasks, idle, live]
      by_cases spawns : Spawns cfg s
      · rw [if_pos spawns]
        have room := spawns.2
        omega
      · rw [if_neg spawns]
        have left := found.resolve_left spawns
        omega
    · simp only [accepted, Bool.false_eq_true, false_and, if_false] at tasks idle live
      exact Tally.enough ⟨tasks, idle, live⟩ enough
  | leave w =>
    obtain ⟨-, does⟩ := step_does hstep
    cases does with
    | leave _ hfrom =>
      left
      rw [idle_leave h (by rw [hfrom]; rfl) (by rw [hfrom]; rfl)]
      exact enough.elim id timely
  | call | wakeSubmit | worker | wakeWorker | timeout | resume | finish | join | close
  | callDestroy | destroy | wakeDestroy | joinRetired =>
    exact quiet_enough h hstep (by simp) (by simp) enough

/-- A step after which there are enough workers was timely. -/
theorem timely_of_enough {l : Label} (h : Sound cfg s) (hstep : step cfg s l = some s')
    (enough : Enough cfg s') : Timely cfg s l := by
  cases l with
  | submit t answer woke =>
    obtain ⟨tasks, idle, live⟩ := (submit_tally h hstep).2
    intro accepted
    by_cases spawns : Spawns cfg s
    · exact Or.inl spawns
    · simp only [accepted, spawns, if_true, and_false, if_false] at tasks idle live
      right
      unfold Enough Full at *
      rw [tasks, idle, live] at enough
      omega
  | leave w =>
    obtain ⟨-, does⟩ := step_does hstep
    cases does with
    | leave _ hfrom =>
      intro full
      have idle := idle_leave h (w := w) (by rw [hfrom]; rfl) (by rw [hfrom]; rfl)
      rcases enough with less | ⟨-, still⟩
      · rw [idle] at less
        exact less
      · have fewer : s.liveCount - 1 = cfg.capacity := still
        have count := full.2
        have limited := full.1
        omega
  | _ => exact trivial

/-- **When the pool creates enough workers.** Whatever the configuration and the
interleaving, each submission that returns 0 leaves an idle worker for each queued task,
or the pool full, exactly in the runs in which each accepted submission finds what it
needs; and there are enough workers in every state exactly of the runs in which no
submission is accepted without a new worker below the capacity while the queued tasks
need all idle ones, and no worker leaves a full pool in which more tasks are queued. -/
theorem spawned_iff (cfg : Config) (ls : List Label) :
    (Lib.Lts.EachStep (step cfg) (Spawned cfg) init ls ↔
      Lib.Lts.EachStep (step cfg) (Finds cfg) init ls) ∧
    (Lib.Lts.Throughout (step cfg) (Enough cfg) init ls ↔
      Lib.Lts.EachStep (step cfg) (Timely cfg) init ls) := by
  constructor
  · exact Lib.Lts.eachStep_congr (fun _ _ _ h hstep => step_sound h hstep)
      (fun _ _ _ h hstep => spawned_step h hstep) (init_sound cfg) ls
  · refine Lib.Lts.throughout_iff_eachStep (I := fun s => Sound cfg s ∧ Enough cfg s) ?_
      (fun _ h => h.2) ?_ ⟨init_sound cfg, Or.inl (Nat.zero_le _)⟩ ls
    · rintro s l s' ⟨h, enough⟩ timely hstep
      exact ⟨step_sound h hstep, timely_enough h enough timely hstep⟩
    · rintro s l s' ⟨h, -⟩ hstep enough
      exact timely_of_enough h hstep enough

/-- Capacity 2. The only worker waits and is signalled for the second task; until it has
the lock, the third one finds it counted as waiting, and no worker is created. -/
theorem signalled_worker_counts_twice : ¬ Lib.Lts.EachStep (step ⟨2, 1000, false, true⟩)
    (Spawned ⟨2, 1000, false, true⟩) init
    [.call 0 none, .submit 0 .granted none, .worker 0, .finish 0, .worker 0, .call 1 none,
      .submit 1 .granted (some 0), .call 2 none, .submit 2 .granted none] := by
  decide

end Coter.ThPool
