import Coter.Lib.Counting
import Coter.Thread.ThPool

/-!
# Runs of the thread pool

`Inv` relates the counts, the lists and the threads of a pool whenever its lock
is free. It holds along every run in which no task is accepted while nobody is
left to take it, and `served_iff` shows that these are exactly the runs in
which accepted tasks are served: a worker in the unlocked part of
`thpool_worker_retire` still occupies its slot but never looks at the queue
again.
-/

namespace Coter.ThPool

open Lib.Counting

/-! ## What a step can do -/

/-- The worker holds the lock and is about to test the queue. -/
def WorkerPc.AtTest (pc : WorkerPc) : Prop := pc = .starting ∨ pc = .ready

/-- Everything that a step can do, with what it needs. -/
inductive Does (cfg : Config) (s : State) : Label → State → Prop
  | call (t : Nat) (early : Option ErrorCode) (pc : SubmitPc) (hfrom : s.submits t = .idle)
      (hto : pc = .entering ∨ pc = .returned .invalidArg ∨ pc = .returned .memAlloc) :
      Does cfg s (.call t early) (s.setSubmit t pc)
  | enter (t : Nat) (answer : Creation) (woke : Option Nat) (hfrom : s.submits t = .entering)
      (hwoke : s.accepts cfg answer = true → s.MayWake woke) :
      Does cfg s (.submit t answer woke) (submitTurn cfg answer woke t s)
  | retry (t : Nat) (answer : Creation) (woke : Option Nat) (hfrom : s.submits t = .woken)
      (hwoke : s.accepts cfg answer = true → s.MayWake woke) :
      Does cfg s (.submit t answer woke) (submitTurn cfg answer woke t (unblock s))
  | wakeSubmit (t : Nat) (hfrom : s.submits t = .blocked) :
      Does cfg s (.wakeSubmit t) (s.setSubmit t .woken)
  | test (w : Nat) (hfrom : (s.workers w).AtTest) : Does cfg s (.worker w) (workerTurn false w s)
  | back (w : Nat) (timedOut : Bool) (hfrom : s.workers w = .woken timedOut) :
      Does cfg s (.worker w) (workerTurn timedOut w (unwait w s))
  | wakeWorker (w : Nat) (hfrom : s.workers w = .waiting) :
      Does cfg s (.wakeWorker w) (s.setWorker w (.woken false))
  | timeout (w : Nat) (hfrom : s.workers w = .waiting) (idle : cfg.idle = true) :
      Does cfg s (.timeout w) (s.setWorker w (.woken true))
  | resume (w : Nat) (hfrom : s.workers w = .woken true) :
      Does cfg s (.resume w) (s.setWorker w .waiting)
  | finish (w t : Nat) (hfrom : s.workers w = .running t) :
      Does cfg s (.finish w) ({ s with finished := t :: s.finished }.setWorker w .ready)
  | join (w v : Nat) (stale : List Nat) (hfrom : s.workers w = .joining (v :: stale))
      (hv : s.workers v = .exited) :
      Does cfg s (.join w) ((s.setWorker v .joined).setWorker w (.joining stale))
  | leave (w : Nat) (hfrom : s.workers w = .joining []) : Does cfg s (.leave w) (leave w s)
  | close : Does cfg s .close (close s)
  | callDestroy (hfrom : s.destroy = .idle) : Does cfg s .callDestroy { s with destroy := .called }
  | destroyClose (hfrom : s.destroy = .called) :
      Does cfg s .destroy { close s with destroy := .testing }
  | destroyTest (hfrom : s.destroy = .testing ∨ s.destroy = .woken) :
      Does cfg s .destroy (destroyTurn s)
  | wakeDestroy (hfrom : s.destroy = .blocked) :
      Does cfg s .wakeDestroy { s with destroy := .woken }
  | release (hfrom : s.destroy = .joining) (hr : s.retired = []) :
      Does cfg s .joinRetired { s with destroy := .done }
  | joinRetired (v : Nat) (rest : List Nat) (hfrom : s.destroy = .joining)
      (hr : s.retired = v :: rest) (hv : s.workers v = .exited) :
      Does cfg s .joinRetired ({ s with retired := rest }.setWorker v .joined)

/-- Everything that a turn of `ct_thpool_submit` can do. -/
inductive Turn (cfg : Config) (woke : Option Nat) (t : Nat) (s : State) : Creation → State → Prop
  | closed (answer : Creation) (hclosed : s.closed = true) :
      Turn cfg woke t s answer (s.setSubmit t (.returned .closed))
  | created (hopen : s.closed = false) (hroom : Room cfg s) (hspawn : Spawns cfg s) :
      Turn cfg woke t s .granted (enqueue woke t (workerCreate .granted s).2)
  | noMemory (hopen : s.closed = false) (hroom : Room cfg s) (hspawn : Spawns cfg s) :
      Turn cfg woke t s .noMemory (s.setSubmit t (.returned .memAlloc))
  | noThread (hopen : s.closed = false) (hroom : Room cfg s) (hspawn : Spawns cfg s) :
      Turn cfg woke t s .noThread (s.broadcastSlot.setSubmit t (.returned .memAlloc))
  | enqueued (answer : Creation) (hopen : s.closed = false) (hroom : Room cfg s)
      (hspawn : ¬ Spawns cfg s) : Turn cfg woke t s answer (enqueue woke t s)
  | overload (answer : Creation) (hopen : s.closed = false) (hroom : ¬ Room cfg s) :
      Turn cfg woke t s answer (s.setSubmit t (.returned .overload))
  | blocked (answer : Creation) (hopen : s.closed = false) (hroom : ¬ Room cfg s) :
      Turn cfg woke t s answer
        ({ s with blockedCount := s.blockedCount + 1 }.setSubmit t .blocked)

theorem submitTurn_turn (cfg : Config) (answer : Creation) (woke : Option Nat) (t : Nat)
    (s : State) : Turn cfg woke t s answer (submitTurn cfg answer woke t s) := by
  unfold submitTurn
  by_cases hclosed : s.closed = true
  · rw [if_pos hclosed]
    exact .closed answer hclosed
  · have hopen : s.closed = false := by simpa using hclosed
    rw [if_neg hclosed]
    by_cases hroom : Room cfg s
    · rw [if_pos hroom]
      by_cases hspawn : Spawns cfg s
      · rw [if_pos hspawn]
        cases answer with
        | granted => exact .created hopen hroom hspawn
        | noMemory => exact .noMemory hopen hroom hspawn
        | noThread => exact .noThread hopen hroom hspawn
      · rw [if_neg hspawn]
        exact .enqueued answer hopen hroom hspawn
    · rw [if_neg hroom]
      split
      · exact .overload answer hopen hroom
      · exact .blocked answer hopen hroom

theorem submit_does {cfg : Config} {s s' : State} {t : Nat} {answer : Creation} {woke : Option Nat}
    (hdone : s.destroy ≠ .done) (hstep : step cfg s (.submit t answer woke) = some s') :
    Does cfg s (.submit t answer woke) s' := by
  rw [step, if_neg hdone] at hstep
  split at hstep
  · cases hstep
  · rename_i hwoke
    have hmay : s.accepts cfg answer = true → s.MayWake woke := by
      intro hacc
      simpa [hacc] using hwoke
    cases hpc : s.submits t with
    | entering =>
      rw [hpc] at hstep
      cases hstep
      exact .enter t answer woke hpc hmay
    | woken =>
      rw [hpc] at hstep
      cases hstep
      exact .retry t answer woke hpc hmay
    | idle | blocked | returned =>
      rw [hpc] at hstep
      cases hstep

theorem worker_does {cfg : Config} {s s' : State} {w : Nat} (hdone : s.destroy ≠ .done)
    (hstep : step cfg s (.worker w) = some s') : Does cfg s (.worker w) s' := by
  rw [step, if_neg hdone] at hstep
  cases hpc : s.workers w with
  | starting =>
    rw [hpc] at hstep
    cases hstep
    exact .test w (Or.inl hpc)
  | ready =>
    rw [hpc] at hstep
    cases hstep
    exact .test w (Or.inr hpc)
  | woken timedOut =>
    rw [hpc] at hstep
    cases hstep
    exact .back w timedOut hpc
  | absent | waiting | running | joining | exited | joined =>
    rw [hpc] at hstep
    cases hstep

theorem destroy_does {cfg : Config} {s s' : State} (hdone : s.destroy ≠ .done)
    (hstep : step cfg s .destroy = some s') : Does cfg s .destroy s' := by
  rw [step, if_neg hdone] at hstep
  cases hpc : s.destroy with
  | called =>
    rw [hpc] at hstep
    cases hstep
    exact .destroyClose hpc
  | testing =>
    rw [hpc] at hstep
    cases hstep
    exact .destroyTest (Or.inl hpc)
  | woken =>
    rw [hpc] at hstep
    cases hstep
    exact .destroyTest (Or.inr hpc)
  | idle | blocked | joining | done =>
    rw [hpc] at hstep
    cases hstep

theorem joinRetired_does {cfg : Config} {s s' : State} (hdone : s.destroy ≠ .done)
    (hstep : step cfg s .joinRetired = some s') : Does cfg s .joinRetired s' := by
  rw [step, if_neg hdone] at hstep
  split at hstep
  · cases hstep
  · rename_i hpc
    have hpc : s.destroy = .joining := not_not.1 hpc
    split at hstep
    · rename_i hr
      cases hstep
      exact .release hpc hr
    · rename_i v rest hr
      split at hstep
      · rename_i hv
        cases hstep
        exact .joinRetired v rest hpc hr hv
      · cases hstep

/-- A step does nothing else, and nothing happens to a pool that was released. -/
theorem step_does {cfg : Config} {s s' : State} {l : Label} (hstep : step cfg s l = some s') :
    s.destroy ≠ .done ∧ Does cfg s l s' := by
  have hdone : s.destroy ≠ .done := by
    intro hd
    unfold step at hstep
    rw [if_pos hd] at hstep
    cases hstep
  refine ⟨hdone, ?_⟩
  cases l with
  | submit t answer woke => exact submit_does hdone hstep
  | worker w => exact worker_does hdone hstep
  | destroy => exact destroy_does hdone hstep
  | joinRetired => exact joinRetired_does hdone hstep
  | call t early =>
    unfold step at hstep
    rw [if_neg hdone] at hstep
    dsimp only at hstep
    split at hstep
    · cases hstep
    · rename_i hpc
      have hpc : s.submits t = .idle := not_not.1 hpc
      split at hstep
      · cases hstep
        exact .call t _ _ hpc (Or.inl rfl)
      · cases hstep
        exact .call t _ _ hpc (Or.inr (Or.inl rfl))
      · cases hstep
        exact .call t _ _ hpc (Or.inr (Or.inr rfl))
      · cases hstep
  | wakeSubmit t =>
    rw [step, if_neg hdone] at hstep
    split at hstep
    · rename_i hpc
      cases hstep
      exact .wakeSubmit t hpc
    · cases hstep
  | wakeWorker w =>
    rw [step, if_neg hdone] at hstep
    split at hstep
    · rename_i hpc
      cases hstep
      exact .wakeWorker w hpc
    · cases hstep
  | timeout w =>
    rw [step, if_neg hdone] at hstep
    split at hstep
    · rename_i hpc
      cases hstep
      exact .timeout w hpc.1 hpc.2
    · cases hstep
  | resume w =>
    rw [step, if_neg hdone] at hstep
    split at hstep
    · rename_i hpc
      cases hstep
      exact .resume w hpc
    · cases hstep
  | finish w =>
    rw [step, if_neg hdone] at hstep
    split at hstep
    · rename_i t hpc
      cases hstep
      exact .finish w t hpc
    · cases hstep
  | join w =>
    rw [step, if_neg hdone] at hstep
    split at hstep
    · rename_i v stale hpc
      split at hstep
      · rename_i hv
        cases hstep
        exact .join w v stale hpc hv
      · cases hstep
    · cases hstep
  | leave w =>
    rw [step, if_neg hdone] at hstep
    split at hstep
    · rename_i hpc
      cases hstep
      exact .leave w hpc
    · cases hstep
  | close =>
    rw [step, if_neg hdone] at hstep
    cases hstep
    exact .close
  | callDestroy =>
    rw [step, if_neg hdone] at hstep
    split at hstep
    · rename_i hpc
      cases hstep
      exact .callDestroy hpc
    · cases hstep
  | wakeDestroy =>
    rw [step, if_neg hdone] at hstep
    split at hstep
    · rename_i hpc
      cases hstep
      exact .wakeDestroy hpc
    · cases hstep

/-! ## The counts -/

/-- The worker is on the live list. -/
def WorkerPc.onLive : WorkerPc → Bool
  | .absent | .exited | .joined => false
  | _ => true

/-- The worker is counted in `waiting_count_`. -/
def WorkerPc.counted : WorkerPc → Bool
  | .waiting | .woken _ => true
  | _ => false

/-- The worker joins stale workers without the lock; it leaves the live list
next, whatever the queue holds by then. -/
def WorkerPc.inWindow : WorkerPc → Bool
  | .joining _ => true
  | _ => false

def WorkerPc.runs (t : Nat) (pc : WorkerPc) : Bool := pc == .running t

/-- How many tasks the call has had accepted. -/
def SubmitPc.accepted : SubmitPc → Nat
  | .returned .normal => 1
  | _ => 0

/-- A worker on the live list will test the queue before it leaves the list. -/
def State.Tester (s : State) : Prop := ∃ w ∈ s.live, (s.workers w).inWindow = false

/-- What holds whenever the lock is free. -/
structure Inv (s : State) : Prop where
  liveCount : s.liveCount = s.live.length
  nodup : s.live.Nodup
  onLive : ∀ w, w ∈ s.live ↔ (s.workers w).onLive = true
  absent : ∀ w, s.created ≤ w → s.workers w = .absent
  waiting : s.waitingCount = s.live.countP (fun w => (s.workers w).counted)
  tasks : ∀ t, s.queue.count t + s.live.countP (fun w => (s.workers w).runs t) +
    s.finished.count t = (s.submits t).accepted
  tested : s.queue ≠ [] → s.Tester
  closing : s.destroy ≠ .idle → s.destroy ≠ .called → s.closed = true
  drained : s.destroy = .joining ∨ s.destroy = .done → s.live = []

theorem init_inv : Inv init where
  liveCount := rfl
  nodup := List.nodup_nil
  onLive w := by simp [init, WorkerPc.onLive]
  absent _ _ := rfl
  waiting := rfl
  tasks t := by simp [init, SubmitPc.accepted]
  tested h := absurd rfl h
  closing h := absurd rfl h
  drained h := by simp [init] at h

/-! ## Wake-ups -/

@[simp] theorem wake_accepted (pc : SubmitPc) : pc.wake.accepted = pc.accepted := by
  cases pc <;> rfl

@[simp] theorem wake_onLive (pc : WorkerPc) : pc.wake.onLive = pc.onLive := by cases pc <;> rfl

@[simp] theorem wake_counted (pc : WorkerPc) : pc.wake.counted = pc.counted := by cases pc <;> rfl

@[simp] theorem wake_inWindow (pc : WorkerPc) : pc.wake.inWindow = pc.inWindow := by
  cases pc <;> rfl

@[simp] theorem wake_runs (t : Nat) (pc : WorkerPc) : pc.wake.runs t = pc.runs t := by
  cases pc <;> rfl

@[simp] theorem wake_absent (pc : WorkerPc) : pc.wake = .absent ↔ pc = .absent := by
  cases pc <;> simp [WorkerPc.wake]

theorem wake_destroy {pc d : DestroyPc} (hb : d ≠ .blocked) (hw : d ≠ .woken) :
    pc.wake = d ↔ pc = d := by
  cases pc <;> simp [DestroyPc.wake, hb.symm, hw.symm]

theorem Inv.broadcastSlot {s : State} (h : Inv s) : Inv s.broadcastSlot where
  liveCount := h.liveCount
  nodup := h.nodup
  onLive := h.onLive
  absent := h.absent
  waiting := h.waiting
  tasks t := by
    simp only [State.broadcastSlot, wake_accepted]
    exact h.tasks t
  tested := h.tested
  closing hi hc := by
    simp only [State.broadcastSlot, ne_eq] at hi hc ⊢
    rw [wake_destroy (by decide) (by decide)] at hi hc
    exact h.closing hi hc
  drained hd := by
    simp only [State.broadcastSlot] at hd ⊢
    rw [wake_destroy (by decide) (by decide), wake_destroy (by decide) (by decide)] at hd
    exact h.drained hd

theorem Inv.broadcastTask {s : State} (h : Inv s) : Inv s.broadcastTask where
  liveCount := h.liveCount
  nodup := h.nodup
  onLive w := by simpa [State.broadcastTask] using h.onLive w
  absent w hw := by simpa [State.broadcastTask] using h.absent w hw
  waiting := by simpa [State.broadcastTask] using h.waiting
  tasks t := by simpa [State.broadcastTask] using h.tasks t
  tested hq := by simpa [State.broadcastTask, State.Tester] using h.tested hq
  closing := h.closing
  drained := h.drained

/-! ## One thread moves -/

/-- A live worker moves to another place of the live list, and takes its part
of the waiting count, of the queue and of the finished tasks with it. -/
theorem Inv.relocate {s : State} (h : Inv s) {w : Nat} {pc : WorkerPc} {queue finished : List Nat}
    {waitingCount queuedCount : Nat} (hfrom : (s.workers w).onLive = true)
    (hto : pc.onLive = true)
    (hcount : waitingCount + (if (s.workers w).counted then 1 else 0) =
      s.waitingCount + (if pc.counted then 1 else 0))
    (htasks : ∀ t, queue.count t + (if pc.runs t then 1 else 0) + finished.count t =
      s.queue.count t + (if (s.workers w).runs t then 1 else 0) + s.finished.count t)
    (hqueue : queue ≠ [] →
      s.queue ≠ [] ∧ ((s.workers w).inWindow = false → pc.inWindow = false)) :
    Inv ({ s with queue, queuedCount, waitingCount, finished }.setWorker w pc) := by
  have hmem := (h.onLive w).2 hfrom
  exact {
    liveCount := h.liveCount
    nodup := h.nodup
    onLive := fun v => by
      simp only [State.setWorker]
      by_cases hv : v = w
      · simp [hv, hto, hmem]
      · simp [hv, h.onLive v]
    absent := fun v hv => by
      simp only [State.setWorker]
      by_cases hvw : v = w
      · rw [hvw] at hv
        simp [h.absent w hv, WorkerPc.onLive] at hfrom
      · simp [hvw, h.absent v hv]
    waiting := by
      have := countP_replace h.nodup WorkerPc.counted s.workers hmem pc
      have := h.waiting
      simp only [State.setWorker]
      omega
    tasks := fun t => by
      have := countP_replace h.nodup (WorkerPc.runs t) s.workers hmem pc
      have := h.tasks t
      have := htasks t
      simp only [State.setWorker]
      omega
    tested := fun hq => by
      obtain ⟨hold, hwindow⟩ := hqueue hq
      obtain ⟨v, hv, hwin⟩ := h.tested hold
      refine ⟨v, hv, ?_⟩
      simp only [State.setWorker]
      by_cases hvw : v = w
      · subst hvw
        simp [hwindow hwin]
      · simp [hvw, hwin]
    closing := h.closing
    drained := h.drained }

/-- A live worker moves to a place that counts the same. -/
theorem Inv.move {s : State} (h : Inv s) {w : Nat} {pc : WorkerPc}
    (hfrom : (s.workers w).onLive = true) (hto : pc.onLive = true)
    (hcount : pc.counted = (s.workers w).counted) (hrun : ∀ t, pc.runs t = (s.workers w).runs t)
    (hwindow : (s.workers w).inWindow = false → pc.inWindow = false) : Inv (s.setWorker w pc) :=
  h.relocate hfrom hto (by rw [hcount]) (fun t => by rw [hrun]) (fun hq => ⟨hq, hwindow⟩)

/-- A worker that has left the live list is joined. -/
theorem Inv.joined {s : State} (h : Inv s) {v : Nat} (hv : s.workers v = .exited) :
    Inv (s.setWorker v .joined) := by
  have hoff : v ∉ s.live := by simp [h.onLive, hv, WorkerPc.onLive]
  exact {
    liveCount := h.liveCount
    nodup := h.nodup
    onLive := fun w => by
      simp only [State.setWorker]
      by_cases hw : w = v
      · simp [hw, hoff, WorkerPc.onLive]
      · simp [hw, h.onLive w]
    absent := fun w hw => by
      simp only [State.setWorker]
      by_cases hwv : w = v
      · rw [hwv] at hw
        simp [h.absent v hw] at hv
      · simp [hwv, h.absent w hw]
    waiting := by
      have := countP_replace_off WorkerPc.counted s.workers hoff .joined
      simp only [State.setWorker, this]
      exact h.waiting
    tasks := fun t => by
      have := countP_replace_off (WorkerPc.runs t) s.workers hoff .joined
      simp only [State.setWorker, this]
      exact h.tasks t
    tested := fun hq => by
      obtain ⟨w, hw, hwin⟩ := h.tested hq
      refine ⟨w, hw, ?_⟩
      have : w ≠ v := by rintro rfl; exact hoff hw
      simpa [State.setWorker, this] using hwin
    closing := h.closing
    drained := h.drained }

/-- A submission that has not been accepted moves on without being accepted. -/
theorem Inv.setSubmit {s : State} (h : Inv s) {t : Nat} {pc : SubmitPc}
    (hfrom : (s.submits t).accepted = 0) (hto : pc.accepted = 0) : Inv (s.setSubmit t pc) where
  liveCount := h.liveCount
  nodup := h.nodup
  onLive := h.onLive
  absent := h.absent
  waiting := h.waiting
  tasks u := by
    have hu := h.tasks u
    simp only [State.setSubmit]
    by_cases hut : u = t
    · subst hut
      simp only [↓reduceIte, hto]
      omega
    · simpa [hut] using hu
  tested := h.tested
  closing := h.closing
  drained := h.drained

/-! ## Sections of a submitter -/

theorem Inv.signalTask {s : State} (h : Inv s) {woke : Option Nat} (hw : s.MayWake woke) :
    Inv (s.signalTask woke) := by
  cases woke with
  | none => exact h
  | some w =>
    have hwait : s.workers w = .waiting := hw
    simp only [State.signalTask, hwait]
    apply h.move <;> simp [hwait, WorkerPc.wake, WorkerPc.onLive, WorkerPc.counted,
      WorkerPc.inWindow, WorkerPc.runs]

/-- A task that is accepted while some worker will test the queue again. -/
theorem Inv.enqueue {s : State} (h : Inv s) {woke : Option Nat} (hw : s.MayWake woke) {t : Nat}
    (hfrom : (s.submits t).accepted = 0) (htester : s.Tester) : Inv (enqueue woke t s) := by
  have hs := h.signalTask hw
  have hsubmits : (s.signalTask woke).submits = s.submits := by
    cases woke <;> simp [State.signalTask, State.setWorker]
  have hqueue : (s.signalTask woke).queue = s.queue := by
    cases woke <;> simp [State.signalTask, State.setWorker]
  have hfields : ThPool.enqueue woke t s = { s.signalTask woke with
      queue := s.queue ++ [t]
      queuedCount := s.queuedCount + 1 }.setSubmit t (.returned .normal) := by
    cases woke <;> rfl
  rw [hfields]
  exact {
    liveCount := hs.liveCount
    nodup := hs.nodup
    onLive := hs.onLive
    absent := hs.absent
    waiting := hs.waiting
    tasks := fun u => by
      have hu := hs.tasks u
      rw [hsubmits, hqueue] at hu
      simp only [State.setSubmit, List.count_append, List.count_singleton]
      by_cases hut : u = t
      · subst hut
        simp only [BEq.rfl, ↓reduceIte, SubmitPc.accepted]
        omega
      · simp only [hut, ↓reduceIte, beq_iff_eq, Ne.symm hut, hsubmits]
        omega
    tested := fun _ => by
      obtain ⟨v, hv, hwin⟩ := htester
      cases woke with
      | none => exact ⟨v, hv, hwin⟩
      | some w =>
        refine ⟨v, hv, ?_⟩
        simp only [State.setSubmit, State.signalTask, State.setWorker]
        by_cases hvw : v = w
        · simpa [hvw] using hwin
        · simpa [hvw] using hwin
    closing := hs.closing
    drained := hs.drained }

theorem Inv.unblock {s : State} (h : Inv s) : Inv (unblock s) := by
  have hs : Inv { s with blockedCount := s.blockedCount - 1 } := ⟨h.liveCount, h.nodup, h.onLive,
    h.absent, h.waiting, h.tasks, h.tested, h.closing, h.drained⟩
  unfold ThPool.unblock
  dsimp only
  split
  · exact hs.broadcastSlot
  · exact hs

theorem Inv.created_off {s : State} (h : Inv s) : s.created ∉ s.live := by
  simp [h.onLive, h.absent s.created (Nat.le_refl _), WorkerPc.onLive]

/-- A granted worker starts in the slot that was reserved for it. -/
theorem Inv.created {s : State} (h : Inv s) (hopen : s.closed = false) :
    Inv (workerCreate .granted s).2 ∧ (workerCreate .granted s).2.Tester := by
  have hoff := h.created_off
  refine ⟨{
    liveCount := by simp [workerCreate, State.setWorker, h.liveCount]
    nodup := by
      simp only [workerCreate, State.setWorker]
      rw [List.nodup_append]
      exact ⟨h.nodup, by simp, by
        intro a ha b hb
        rintro rfl
        exact hoff (by simpa [List.mem_singleton.1 hb] using ha)⟩
    onLive := fun w => by
      simp only [workerCreate, State.setWorker, List.mem_append, List.mem_singleton]
      by_cases hw : w = s.created
      · simp [hw, WorkerPc.onLive]
      · simp [hw, h.onLive w]
    absent := fun w hw => by
      simp only [workerCreate, State.setWorker] at hw ⊢
      have : w ≠ s.created := by omega
      simpa [this] using h.absent w (by omega)
    waiting := by
      have := countP_replace_off WorkerPc.counted s.workers hoff .starting
      simp only [workerCreate, State.setWorker, List.countP_append, this, List.countP_singleton]
      exact h.waiting
    tasks := fun t => by
      have := countP_replace_off (WorkerPc.runs t) s.workers hoff .starting
      simp only [workerCreate, State.setWorker, List.countP_append, this, List.countP_singleton]
      exact h.tasks t
    tested := fun _ => ⟨s.created, by simp [workerCreate],
      by simp [workerCreate, State.setWorker, WorkerPc.inWindow]⟩
    closing := h.closing
    drained := fun hd => by
      have hd' : s.destroy = .joining ∨ s.destroy = .done := hd
      have : s.closed = true := by
        apply h.closing <;> rcases hd' with hd' | hd' <;> simp [hd']
      simp [hopen] at this }, ?_⟩
  exact ⟨s.created, by simp [workerCreate],
    by simp [workerCreate, State.setWorker, WorkerPc.inWindow]⟩

theorem mayWake_created {s : State} (h : Inv s) {woke : Option Nat} (hw : s.MayWake woke) :
    (workerCreate .granted s).2.MayWake woke := by
  cases woke with
  | some w =>
    have hwait : s.workers w = .waiting := hw
    have : w ≠ s.created := by
      rintro rfl
      simp [h.absent s.created (Nat.le_refl _)] at hwait
    simpa [State.MayWake, workerCreate, State.setWorker, this] using hwait
  | none =>
    intro w hmem
    simp only [workerCreate, List.mem_append, List.mem_singleton] at hmem
    simp only [workerCreate, State.setWorker]
    by_cases hwc : w = s.created
    · simp [hwc]
    · simp only [hwc, ↓reduceIte, ne_eq]
      exact hw w (by simpa [hwc, State.setWorker] using hmem)

/-- A turn of `ct_thpool_submit` that does not strand the task it accepts. -/
theorem Inv.submitTurn {cfg : Config} {answer : Creation} {woke : Option Nat} {t : Nat} {s : State}
    (h : Inv s) (hw : s.accepts cfg answer = true → s.MayWake woke)
    (hfrom : (s.submits t).accepted = 0)
    (htester : s.accepts cfg answer = true → Spawns cfg s ∨ s.Tester) :
    Inv (submitTurn cfg answer woke t s) := by
  have turn := submitTurn_turn cfg answer woke t s
  generalize ThPool.submitTurn cfg answer woke t s = u at turn ⊢
  cases turn with
  | closed _ hclosed => exact h.setSubmit hfrom rfl
  | created hopen hroom hspawn =>
    obtain ⟨hinv, ht⟩ := h.created hopen
    have hacc : s.accepts cfg .granted = true := by simp [State.accepts, hopen, hroom]
    exact hinv.enqueue (mayWake_created h (hw hacc)) hfrom ht
  | noMemory hopen hroom hspawn => exact h.setSubmit hfrom rfl
  | noThread hopen hroom hspawn =>
    exact h.broadcastSlot.setSubmit (by simpa [State.broadcastSlot] using hfrom) rfl
  | enqueued _ hopen hroom hspawn =>
    have hacc : s.accepts cfg answer = true := by simp [State.accepts, hopen, hroom, hspawn]
    exact h.enqueue (hw hacc) hfrom ((htester hacc).resolve_left hspawn)
  | overload _ hopen hroom => exact h.setSubmit hfrom rfl
  | blocked _ hopen hroom =>
    have hs : Inv { s with blockedCount := s.blockedCount + 1 } := ⟨h.liveCount, h.nodup,
      h.onLive, h.absent, h.waiting, h.tasks, h.tested, h.closing, h.drained⟩
    exact hs.setSubmit hfrom (show SubmitPc.accepted .blocked = 0 from rfl)

/-! ## Sections of a worker -/

/-- A worker that woke up and holds the lock again is no longer counted as waiting. -/
theorem Inv.unwait {s : State} (h : Inv s) {w : Nat} {timedOut : Bool}
    (hw : s.workers w = .woken timedOut) : Inv (unwait w s) := by
  have hmem : w ∈ s.live := by simp [h.onLive, hw, WorkerPc.onLive]
  have hpos : 0 < s.waitingCount := by
    rw [h.waiting, List.countP_pos_iff]
    exact ⟨w, hmem, by simp [hw, WorkerPc.counted]⟩
  apply h.relocate
  · simp [hw, WorkerPc.onLive]
  · rfl
  · simp only [hw, WorkerPc.counted, ↓reduceIte, Bool.false_eq_true]
    omega
  · intro t
    simp [hw, WorkerPc.runs]
  · exact fun hq => ⟨hq, fun _ => rfl⟩

/-- A worker that is neither waiting nor running leaves the live list. -/
theorem Inv.leave {s : State} (h : Inv s) {w : Nat} (hlive : (s.workers w).onLive = true)
    (hcount : (s.workers w).counted = false) (hrun : ∀ t, (s.workers w).runs t = false)
    (hothers : s.queue ≠ [] → (s.workers w).inWindow = true) : Inv (leave w s) := by
  have hmem : w ∈ s.live := (h.onLive w).2 hlive
  have hoff : w ∉ s.live.erase w := h.nodup.not_mem_erase
  have hsplit (p : WorkerPc → Bool) :=
    countP_erase_mem (fun v => p (s.workers v)) hmem
  have hrest (p : WorkerPc → Bool) := countP_replace_off p s.workers hoff .exited
  have hlen := List.length_erase_of_mem hmem
  have hpos := List.length_pos_of_mem hmem
  exact {
    liveCount := by
      simp only [ThPool.leave, State.broadcastSlot, State.setWorker, h.liveCount, hlen]
    nodup := h.nodup.erase w
    onLive := fun v => by
      simp only [ThPool.leave, State.broadcastSlot, State.setWorker]
      by_cases hv : v = w
      · simp [hv, hoff, WorkerPc.onLive]
      · simp [hv, List.mem_erase_of_ne hv, h.onLive v]
    absent := fun v hv => by
      simp only [ThPool.leave, State.broadcastSlot, State.setWorker] at hv ⊢
      by_cases hvw : v = w
      · rw [hvw] at hv
        simp [h.absent w hv, WorkerPc.onLive] at hlive
      · simp [hvw, h.absent v hv]
    waiting := by
      have := hsplit WorkerPc.counted
      simp only [ThPool.leave, State.broadcastSlot, State.setWorker, hrest, h.waiting]
      simp only [hcount, Bool.false_eq_true, ↓reduceIte] at this
      omega
    tasks := fun t => by
      have := hsplit (WorkerPc.runs t)
      have := h.tasks t
      simp only [ThPool.leave, State.broadcastSlot, State.setWorker, hrest, wake_accepted]
      simp only [hrun t, Bool.false_eq_true, ↓reduceIte] at *
      omega
    tested := fun hq => by
      obtain ⟨v, hv, hwin⟩ := h.tested hq
      have hvw : v ≠ w := by
        rintro rfl
        simp [hothers hq] at hwin
      refine ⟨v, (List.mem_erase_of_ne hvw).2 hv, ?_⟩
      simpa [ThPool.leave, State.broadcastSlot, State.setWorker, hvw] using hwin
    closing := h.broadcastSlot.closing
    drained := fun hd => by
      have hnil := h.broadcastSlot.drained hd
      have : s.live = [] := hnil
      simp [this] at hmem }

theorem WorkerPc.AtTest.plain {pc : WorkerPc} (h : pc.AtTest) :
    pc.onLive = true ∧ pc.counted = false ∧ ∀ t, pc.runs t = false := by
  rcases h with rfl | rfl <;> exact ⟨rfl, rfl, fun _ => rfl⟩

theorem Inv.retire {s : State} (h : Inv s) {w : Nat} (hw : (s.workers w).AtTest)
    (hq : s.queue = []) : Inv (retire w s) := by
  obtain ⟨hlive, hcount, hrun⟩ := hw.plain
  unfold ThPool.retire
  cases hr : s.retired with
  | nil => exact h.leave hlive hcount hrun (fun hne => absurd hq hne)
  | cons v rest =>
    have hs : Inv { s with retired := [] } := ⟨h.liveCount, h.nodup, h.onLive, h.absent, h.waiting,
      h.tasks, h.tested, h.closing, h.drained⟩
    apply hs.relocate hlive rfl
    · rw [hcount]
      rfl
    · intro t
      rw [hrun t]
      rfl
    · exact fun hne => absurd hq hne

theorem Inv.workerTurn {s : State} (h : Inv s) {w : Nat} {timedOut : Bool}
    (hw : (s.workers w).AtTest) : Inv (workerTurn timedOut w s) := by
  obtain ⟨hlive, hcount, hrun⟩ := hw.plain
  unfold ThPool.workerTurn
  cases hq : s.queue with
  | nil =>
    dsimp only
    split
    · exact h.retire hw hq
    · apply h.relocate hlive rfl
      · rw [hcount]
        rfl
      · intro t
        rw [hrun t, hq]
        rfl
      · exact fun hne => absurd rfl hne
  | cons t rest =>
    have taken : Inv ({ s with queue := rest, queuedCount := s.queuedCount - 1 }.setWorker w
        (.running t)) := by
      apply h.relocate hlive rfl
      · rw [hcount]
        rfl
      · intro u
        rw [hrun u, hq, List.count_cons]
        simp [WorkerPc.runs]
      · exact fun _ => ⟨by simp [hq], fun _ => rfl⟩
    dsimp only
    split
    · exact taken.broadcastSlot
    · exact taken

theorem Inv.finish {s : State} (h : Inv s) {w t : Nat} (hw : s.workers w = .running t) :
    Inv ({ s with finished := t :: s.finished }.setWorker w .ready) := by
  apply h.relocate
  · simp [hw, WorkerPc.onLive]
  · rfl
  · rw [hw]
    rfl
  · intro u
    rw [hw, List.count_cons]
    simp only [WorkerPc.runs, beq_iff_eq, WorkerPc.running.injEq, reduceCtorEq, ↓reduceIte]
    omega
  · exact fun hq => ⟨hq, fun _ => rfl⟩

/-! ## Closing and destroying -/

theorem Inv.close {s : State} (h : Inv s) : Inv (close s) := by
  have hs : Inv { s with closed := true } := ⟨h.liveCount, h.nodup, h.onLive, h.absent, h.waiting,
    h.tasks, h.tested, fun _ _ => rfl, h.drained⟩
  exact hs.broadcastTask.broadcastSlot

/-- The destroyer moves without entering its final loop. -/
theorem Inv.setDestroy {s : State} (h : Inv s) {pc : DestroyPc}
    (hclosed : pc ≠ .idle → pc ≠ .called → s.closed = true)
    (hdrained : pc = .joining ∨ pc = .done → s.live = []) : Inv { s with destroy := pc } :=
  ⟨h.liveCount, h.nodup, h.onLive, h.absent, h.waiting, h.tasks, h.tested, hclosed, hdrained⟩

theorem Inv.destroyTurn {s : State} (h : Inv s) (hclosed : s.closed = true) :
    Inv (destroyTurn s) := by
  unfold ThPool.destroyTurn
  split
  · exact h.setDestroy (fun _ _ => hclosed) (by simp)
  · rename_i hstop
    refine h.setDestroy (fun _ _ => hclosed) (fun _ => ?_)
    have := h.liveCount
    exact List.eq_nil_of_length_eq_zero (by omega)

/-! ## Every step -/

/-- The step does not accept a task that only workers which never look at the
queue again could take: a worker is created for it, or one is left that tests. -/
def LeavesTester (cfg : Config) (s : State) : Label → Prop
  | .submit _ answer _ => s.accepts cfg answer = true → Spawns cfg s ∨ s.Tester
  | _ => True

theorem unblock_accepts (cfg : Config) (answer : Creation) (s : State) :
    (unblock s).accepts cfg answer = s.accepts cfg answer := by
  unfold unblock
  dsimp only
  split <;> rfl

theorem unblock_spawns (cfg : Config) (s : State) : Spawns cfg (unblock s) ↔ Spawns cfg s := by
  unfold unblock
  dsimp only
  split <;> exact Iff.rfl

theorem unblock_workers (s : State) :
    (unblock s).workers = s.workers ∧ (unblock s).live = s.live := by
  unfold unblock
  dsimp only
  split <;> exact ⟨rfl, rfl⟩

theorem unblock_accepted (s : State) (t : Nat) :
    ((unblock s).submits t).accepted = (s.submits t).accepted := by
  unfold unblock
  dsimp only
  split
  · exact wake_accepted _
  · rfl

theorem step_inv {cfg : Config} {s s' : State} {l : Label} (h : Inv s) (hc : LeavesTester cfg s l)
    (hstep : step cfg s l = some s') : Inv s' := by
  obtain ⟨-, does⟩ := step_does hstep
  cases does with
  | call t early pc hfrom hto =>
    have hnew : pc.accepted = 0 := by rcases hto with rfl | rfl | rfl <;> rfl
    exact h.setSubmit (by rw [hfrom]; rfl) hnew
  | enter t answer woke hfrom hwoke => exact h.submitTurn hwoke (by rw [hfrom]; rfl) hc
  | retry t answer woke hfrom hwoke =>
    obtain ⟨hworkers, hlive⟩ := unblock_workers s
    apply h.unblock.submitTurn
    · rw [unblock_accepts]
      intro hacc
      have := hwoke hacc
      cases woke <;> simpa [State.MayWake, hworkers, hlive] using this
    · rw [unblock_accepted, hfrom]
      rfl
    · rw [unblock_accepts, unblock_spawns]
      intro hacc
      simpa [State.Tester, hworkers, hlive] using hc hacc
  | wakeSubmit t hfrom => exact h.setSubmit (by rw [hfrom]; rfl) rfl
  | test w hfrom => exact h.workerTurn hfrom
  | back w timedOut hfrom =>
    exact (h.unwait hfrom).workerTurn (Or.inr (by simp [unwait, State.setWorker]))
  | wakeWorker w hfrom | timeout w hfrom _ | resume w hfrom =>
    apply h.move <;> simp [hfrom, WorkerPc.onLive, WorkerPc.counted, WorkerPc.runs,
      WorkerPc.inWindow]
  | finish w t hfrom => exact h.finish hfrom
  | join w v stale hfrom hv =>
    have hne : w ≠ v := by
      rintro rfl
      simp [hfrom] at hv
    have hpc : (s.setWorker v .joined).workers w = .joining (v :: stale) := by
      simp [State.setWorker, hne, hfrom]
    apply (h.joined hv).move <;> simp [hpc, WorkerPc.onLive, WorkerPc.counted, WorkerPc.runs,
      WorkerPc.inWindow]
  | leave w hfrom =>
    apply h.leave <;> simp [hfrom, WorkerPc.onLive, WorkerPc.counted, WorkerPc.runs,
      WorkerPc.inWindow]
  | close => exact h.close
  | callDestroy hfrom => exact h.setDestroy (by simp) (by simp)
  | destroyClose hfrom => exact h.close.setDestroy (fun _ _ => rfl) (by simp)
  | destroyTest hfrom =>
    rcases hfrom with hpc | hpc <;>
      exact h.destroyTurn (h.closing (by simp [hpc]) (by simp [hpc]))
  | wakeDestroy hfrom =>
    exact h.setDestroy (fun _ _ => h.closing (by simp [hfrom]) (by simp [hfrom])) (by simp)
  | release hfrom hr =>
    exact h.setDestroy (fun _ _ => h.closing (by simp [hfrom]) (by simp [hfrom]))
      (fun _ => h.drained (Or.inl hfrom))
  | joinRetired v rest hfrom hr hv =>
    have hs : Inv { s with retired := rest } := ⟨h.liveCount, h.nodup, h.onLive, h.absent,
      h.waiting, h.tasks, h.tested, h.closing, h.drained⟩
    exact hs.joined hv

/-! ## Whole runs -/

/-- Accepted tasks are served: a non-empty queue leaves a worker that will test
it, and a pool that `ct_thpool_destroy` has released has run every accepted
task exactly once. -/
def Served (s : State) : Prop :=
  (s.queue ≠ [] → s.Tester) ∧
  (s.destroy = .done → ∀ t, s.submits t = .returned .normal → s.finished.count t = 1)

theorem Inv.served {s : State} (h : Inv s) : Served s := by
  refine ⟨h.tested, fun hdone t ht => ?_⟩
  have hlive := h.drained (Or.inr hdone)
  have hqueue : s.queue = [] := by
    apply Classical.byContradiction
    intro hne
    obtain ⟨w, hw, _⟩ := h.tested hne
    simp [hlive] at hw
  have := h.tasks t
  simpa [hlive, hqueue, ht, SubmitPc.accepted] using this

/-- A step that strands the task it accepts leaves nobody to test the queue. -/
theorem leavesTester_of_served {cfg : Config} {s s' : State} {l : Label}
    (hstep : step cfg s l = some s') (hs : Served s') : LeavesTester cfg s l := by
  cases l with
  | submit t answer woke =>
    intro hacc
    by_cases hspawn : Spawns cfg s
    · exact Or.inl hspawn
    right
    -- without a new worker, the testers behind the step are those before it
    have turned : ∀ u : State, u.live = s.live → u.workers = s.workers → u.closed = s.closed →
        (Room cfg u ↔ Room cfg s) → (Spawns cfg u ↔ Spawns cfg s) →
        submitTurn cfg answer woke t u = s' → s.Tester := by
      rintro u hlive hworkers hclosed hroom hspawns rfl
      simp only [State.accepts, Bool.and_eq_true, Bool.not_eq_true', decide_eq_true_eq] at hacc
      have henq : submitTurn cfg answer woke t u = enqueue woke t u := by
        unfold submitTurn
        rw [if_neg (by simp [hclosed, hacc.1.1]), if_pos (hroom.2 hacc.1.2),
          if_neg (fun h => hspawn (hspawns.1 h))]
      rw [henq] at hs
      obtain ⟨v, hv, hwin⟩ := hs.1 (by
        cases woke <;> simp [enqueue, State.signalTask, State.setWorker, State.setSubmit])
      cases woke with
      | none => exact ⟨v, by rw [← hlive]; exact hv, by rw [← hworkers]; exact hwin⟩
      | some w =>
        refine ⟨v, by rw [← hlive]; exact hv, ?_⟩
        rw [← hworkers]
        simp only [enqueue, State.signalTask, State.setWorker, State.setSubmit] at hwin
        by_cases hvw : v = w
        · subst hvw
          simpa using hwin
        · simpa [hvw] using hwin
    obtain ⟨-, does⟩ := step_does hstep
    cases does with
    | enter t answer woke hfrom hwoke => exact turned s rfl rfl rfl Iff.rfl Iff.rfl rfl
    | retry t answer woke hfrom hwoke =>
      obtain ⟨hworkers, hlive⟩ := unblock_workers s
      refine turned (unblock s) hlive hworkers ?_ ?_ (unblock_spawns cfg s) rfl <;>
        unfold unblock <;> dsimp only <;> split <;> rfl
  | _ => exact trivial

/-! ### Leaving the live list -/

theorem signalTask_live (s : State) (woke : Option Nat) : (s.signalTask woke).live = s.live := by
  cases woke <;> rfl

theorem submitTurn_live (cfg : Config) (answer : Creation) (woke : Option Nat) (t w : Nat)
    (s : State) (hw : w ∈ s.live) : w ∈ (submitTurn cfg answer woke t s).live := by
  have enqueued (u : State) (hu : w ∈ u.live) : w ∈ (enqueue woke t u).live := by
    simpa [enqueue, State.setSubmit, signalTask_live] using hu
  have turn := submitTurn_turn cfg answer woke t s
  generalize submitTurn cfg answer woke t s = u at turn ⊢
  cases turn with
  | created => exact enqueued _ (by simp [workerCreate, State.setWorker, hw])
  | enqueued => exact enqueued s hw
  | closed | noMemory | noThread | overload | blocked => exact hw

theorem workerTurn_live (timedOut : Bool) (v w : Nat) (s : State) (hw : w ∈ s.live) :
    w ∈ (workerTurn timedOut v s).live ∨ s.queue = [] := by
  unfold workerTurn
  cases hq : s.queue with
  | nil => exact Or.inr rfl
  | cons t rest =>
    left
    dsimp only
    split <;> exact hw

/-- A worker outside the unlocked part of its retirement leaves the live list
only in a section that has found the queue empty. -/
theorem leaves_after_test {cfg : Config} {s s' : State} {l : Label} {w : Nat}
    (hstep : step cfg s l = some s') (hw : w ∈ s.live) (hwin : (s.workers w).inWindow = false) :
    w ∈ s'.live ∨ s.queue = [] := by
  obtain ⟨-, does⟩ := step_does hstep
  cases does with
  | enter t answer woke hfrom hwoke => exact Or.inl (submitTurn_live cfg answer woke t w s hw)
  | retry t answer woke hfrom hwoke =>
    left
    exact submitTurn_live cfg answer woke t w _ (by rw [(unblock_workers s).2]; exact hw)
  | test v hfrom => exact workerTurn_live _ v w s hw
  | back v timedOut hfrom => exact workerTurn_live _ v w (unwait v s) hw
  | leave v hfrom =>
    have hne : w ≠ v := by
      rintro rfl
      simp [hfrom, WorkerPc.inWindow] at hwin
    exact Or.inl ((List.mem_erase_of_ne hne).2 hw)
  | destroyTest hfrom =>
    left
    unfold destroyTurn
    split <;> exact hw
  | call | wakeSubmit | wakeWorker | timeout | resume | finish | join | close | callDestroy
  | destroyClose | wakeDestroy | release | joinRetired => exact Or.inl hw

/-- **Which runs serve every accepted task.** Whatever the configuration and the
interleaving, accepted tasks are served throughout exactly the runs in which no
task is accepted at full capacity while every live worker is past its last test
of the queue; a worker that is not past it leaves only after a test. -/
theorem served_iff (cfg : Config) (ls : List Label) :
    (Lib.Lts.Throughout (step cfg) Served init ls ↔
      Lib.Lts.EachStep (step cfg) (LeavesTester cfg) init ls) ∧
    ∀ (s s' : State) (l : Label) (w : Nat), step cfg s l = some s' → w ∈ s.live →
      (s.workers w).inWindow = false → w ∈ s'.live ∨ s.queue = [] :=
  ⟨Lib.Lts.throughout_iff_eachStep (fun _ _ _ h hc hstep => step_inv h hc hstep)
    (fun _ h => h.served) (fun _ _ _ _ hstep hs => leavesTester_of_served hstep hs) init_inv ls,
    fun _ _ _ _ hstep hw hwin => leaves_after_test hstep hw hwin⟩

/-- The worker `w` takes the task `t`, runs it, idles until its timeout and retires. -/
def shift (t w : Nat) : List Label :=
  [.call t none, .submit t .granted none, .worker w, .finish w, .worker w, .timeout w, .worker w]

/-- Capacity 1. The second worker is still joining the first when a third task
is accepted: no worker is created, the second one leaves, and the pool is
destroyed with the task in its queue. -/
theorem retiring_worker_strands_task :
    (Lib.Lts.run (step ⟨1, 1000, false, true⟩) init
      (shift 0 0 ++ shift 1 1 ++ [.call 2 none, .submit 2 .granted none, .join 1, .leave 1,
        .callDestroy, .destroy, .destroy, .joinRetired, .joinRetired])).map
      (fun s => (s.destroy, s.submits 2, s.finished, s.queue)) =
    some (.done, .returned .normal, [1, 0], [2]) := by
  decide

end Coter.ThPool
