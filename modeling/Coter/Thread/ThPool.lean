import Coter.Lib.Lts

/-!
# The thread pool

`ct_thpool`: submitters queue tasks, worker threads are created on demand, run
the tasks and retire when idle, and `ct_thpool_destroy` waits for all of them.

All shared data is guarded by one mutex, so a step is one critical section:
from a lock, or the return of a condition wait, to the next unlock or wait.
Between steps the lock is free. A step also is a wake-up, a timeout, the end of
a task, or a join, none of which holds the lock.
-/

namespace Coter.ThPool

/-- The settings of a pool. `idle` says that `idle_timeout_` is not zero. -/
structure Config where
  capacity : Nat
  maxTasks : Nat
  nonBlocking : Bool
  idle : Bool
  deriving DecidableEq, Repr

inductive ErrorCode
  | normal
  | closed
  | overload
  | invalidArg
  | memAlloc
  deriving DecidableEq, Repr

/-- Where a worker thread stands. `waiting` is blocked on `task_cond_`; a woken
worker has left the condition variable and is re-acquiring the lock; a joining
worker is inside `thpool_worker_retire` with its private list of stale workers. -/
inductive WorkerPc
  | absent
  | starting
  | waiting
  | woken (timedOut : Bool)
  | running (task : Nat)
  | ready
  | joining (stale : List Nat)
  | exited
  | joined
  deriving DecidableEq, Repr

/-- Where a call of `ct_thpool_submit` stands. -/
inductive SubmitPc
  | idle
  | entering
  | blocked
  | woken
  | returned (rc : ErrorCode)
  deriving DecidableEq, Repr

/-- Where `ct_thpool_destroy` stands. -/
inductive DestroyPc
  | idle
  | called
  | testing
  | blocked
  | woken
  | joining
  | done
  deriving DecidableEq, Repr

/-- The pool and its threads. A task is named after the call that submits it, a
worker by the order of creation; `finished` records the tasks that were run. -/
structure State where
  queue : List Nat
  live : List Nat
  retired : List Nat
  liveCount : Nat
  waitingCount : Nat
  blockedCount : Nat
  queuedCount : Nat
  closed : Bool
  created : Nat
  workers : Nat → WorkerPc
  submits : Nat → SubmitPc
  destroy : DestroyPc
  finished : List Nat

/-- `ct_thpool_create`. -/
def init : State where
  queue := []
  live := []
  retired := []
  liveCount := 0
  waitingCount := 0
  blockedCount := 0
  queuedCount := 0
  closed := false
  created := 0
  workers _ := .absent
  submits _ := .idle
  destroy := .idle
  finished := []

def State.setWorker (s : State) (w : Nat) (pc : WorkerPc) : State :=
  { s with workers := fun v => if v = w then pc else s.workers v }

def State.setSubmit (s : State) (t : Nat) (pc : SubmitPc) : State :=
  { s with submits := fun u => if u = t then pc else s.submits u }

/-! ## Condition variables -/

def SubmitPc.wake : SubmitPc → SubmitPc
  | .blocked => .woken
  | pc => pc

def DestroyPc.wake : DestroyPc → DestroyPc
  | .blocked => .woken
  | pc => pc

def WorkerPc.wake : WorkerPc → WorkerPc
  | .waiting => .woken false
  | pc => pc

/-- `ct_cond_broadcast(&self->slot_cond_)`: submitters and the destroyer wait there. -/
def State.broadcastSlot (s : State) : State :=
  { s with submits := fun t => (s.submits t).wake, destroy := s.destroy.wake }

/-- `ct_cond_broadcast(&self->task_cond_)`. -/
def State.broadcastTask (s : State) : State :=
  { s with workers := fun w => (s.workers w).wake }

/-- `ct_cond_signal(&self->task_cond_)` wakes the worker `woke`; it wakes nobody
only when nobody waits. -/
def State.signalTask (s : State) (woke : Option Nat) : State :=
  match woke with
  | some w => s.setWorker w (s.workers w).wake
  | none => s

/-- The worker that a signal wakes is one that waits. -/
def State.MayWake (s : State) (woke : Option Nat) : Prop :=
  match woke with
  | some w => s.workers w = .waiting
  | none => ∀ w ∈ s.live, s.workers w ≠ .waiting

instance (s : State) : (woke : Option Nat) → Decidable (s.MayWake woke)
  | some w => inferInstanceAs (Decidable (s.workers w = .waiting))
  | none => inferInstanceAs (Decidable (∀ w ∈ s.live, s.workers w ≠ .waiting))

/-! ## Submitting -/

/-- How the system answers `thpool_worker_create`. -/
inductive Creation
  | granted
  | noMemory
  | noThread
  deriving DecidableEq, Repr

/-- `thpool_worker_create`; the live slot is reserved before the thread exists. -/
def workerCreate (answer : Creation) (s : State) : ErrorCode × State :=
  match answer with
  | .noMemory => (.memAlloc, s)
  | .noThread =>
    let s := { s with liveCount := s.liveCount + 1 }
    let s := { s with liveCount := s.liveCount - 1 }
    (.memAlloc, s.broadcastSlot)
  | .granted =>
    let worker := s.created
    let s := { s with liveCount := s.liveCount + 1, created := s.created + 1 }
    let s := s.setWorker worker .starting
    (.normal, { s with live := s.live ++ [worker] })

/-- The end of an accepted submission: append, count, signal, unlock. -/
def enqueue (woke : Option Nat) (t : Nat) (s : State) : State :=
  let s := { s with queue := s.queue ++ [t], queuedCount := s.queuedCount + 1 }
  (s.signalTask woke).setSubmit t (.returned .normal)

/-- There is room for one more task. -/
def Room (cfg : Config) (s : State) : Prop := cfg.maxTasks = 0 ∨ s.queuedCount < cfg.maxTasks

/-- Nobody waits for a task and one more worker is allowed. -/
def Spawns (cfg : Config) (s : State) : Prop :=
  s.waitingCount = 0 ∧ (cfg.capacity = 0 ∨ s.liveCount < cfg.capacity)

instance (cfg : Config) (s : State) : Decidable (Room cfg s) := by unfold Room; infer_instance

instance (cfg : Config) (s : State) : Decidable (Spawns cfg s) := by unfold Spawns; infer_instance

/-- One turn of the `for (;;)` of `ct_thpool_submit`, up to the unlock or the wait. -/
def submitTurn (cfg : Config) (answer : Creation) (woke : Option Nat) (t : Nat) (s : State) : State :=
  if s.closed then s.setSubmit t (.returned .closed)
  else if Room cfg s then
    if Spawns cfg s then
      match workerCreate answer s with
      | (.normal, s) => enqueue woke t s
      | (rc, s) => s.setSubmit t (.returned rc)
    else enqueue woke t s
  else if cfg.nonBlocking then s.setSubmit t (.returned .overload)
  else { s with blockedCount := s.blockedCount + 1 }.setSubmit t .blocked

/-- What a submitter does first when its wait on `slot_cond_` returns. -/
def unblock (s : State) : State :=
  let s := { s with blockedCount := s.blockedCount - 1 }
  if s.blockedCount = 0 then s.broadcastSlot else s

/-! ## Working -/

/-- The end of `thpool_worker_retire`, which every retirement reaches. -/
def leave (w : Nat) (s : State) : State :=
  let s := { s with live := s.live.erase w, retired := s.retired ++ [w] }
  let s := { s with liveCount := s.liveCount - 1 }
  s.broadcastSlot.setWorker w .exited

/-- `thpool_worker_retire` up to its first unlock. -/
def retire (w : Nat) (s : State) : State :=
  match s.retired with
  | [] => leave w s
  | stale => { s with retired := [] }.setWorker w (.joining stale)

/-- What a worker does first when its wait on `task_cond_` returns. -/
def unwait (w : Nat) (s : State) : State :=
  { s with waitingCount := s.waitingCount - 1 }.setWorker w .ready

/-- The critical section of `thpool_worker_thread` from the test of the queue:
take a task, or wait, or retire. -/
def workerTurn (timedOut : Bool) (w : Nat) (s : State) : State :=
  match s.queue with
  | t :: rest =>
    let s := { s with queue := rest, queuedCount := s.queuedCount - 1 }
    let s := if 0 < s.blockedCount then s.broadcastSlot else s
    s.setWorker w (.running t)
  | [] =>
    if s.closed || timedOut then retire w s
    else { s with waitingCount := s.waitingCount + 1 }.setWorker w .waiting

/-! ## Closing and destroying -/

/-- `ct_thpool_close`. -/
def close (s : State) : State := { s with closed := true }.broadcastTask.broadcastSlot

/-- The test of the wait loop in `ct_thpool_destroy`. -/
def destroyTurn (s : State) : State :=
  if 0 < s.liveCount ∨ 0 < s.blockedCount then { s with destroy := .blocked }
  else { s with destroy := .joining }

/-! ## Steps -/

/-- Everything that can happen next, with the choices of the system. -/
inductive Label
  /-- `ct_thpool_submit` is called, and fails before it takes the lock if `early` says so. -/
  | call (t : Nat) (early : Option ErrorCode)
  /-- A submitter's critical section; `answer` and `woke` are used where it needs them. -/
  | submit (t : Nat) (answer : Creation) (woke : Option Nat)
  | wakeSubmit (t : Nat)
  | worker (w : Nat)
  | wakeWorker (w : Nat)
  | timeout (w : Nat)
  /-- A slice of the timed wait ended before its deadline and the wait resumes. -/
  | resume (w : Nat)
  | finish (w : Nat)
  | join (w : Nat)
  | leave (w : Nat)
  | close
  | callDestroy
  | destroy
  | wakeDestroy
  | joinRetired
  deriving DecidableEq, Repr

/-- A thread whose routine has returned can be joined. -/
def State.Exited (s : State) (w : Nat) : Prop := s.workers w = .exited

instance (s : State) (w : Nat) : Decidable (s.Exited w) := by
  unfold State.Exited
  infer_instance

/-- The submitter's section accepts a task, so it signals `task_cond_`. -/
def State.accepts (cfg : Config) (answer : Creation) (s : State) : Bool :=
  !s.closed && Room cfg s && (!Spawns cfg s || answer == .granted)

/-- The next state; `none` where the label is not enabled. Nothing happens to a
pool that `ct_thpool_destroy` has released. -/
def step (cfg : Config) (s : State) (l : Label) : Option State :=
  if s.destroy = .done then none
  else match l with
  | .call t early =>
    if s.submits t ≠ .idle then none
    else match early with
    | none => some (s.setSubmit t .entering)
    | some .invalidArg => some (s.setSubmit t (.returned .invalidArg))
    | some .memAlloc => some (s.setSubmit t (.returned .memAlloc))
    | some _ => none
  | .submit t answer woke =>
    if s.accepts cfg answer && !s.MayWake woke then none
    else match s.submits t with
    | .entering => some (submitTurn cfg answer woke t s)
    | .woken => some (submitTurn cfg answer woke t (unblock s))
    | _ => none
  | .wakeSubmit t =>
    if s.submits t = .blocked then some (s.setSubmit t .woken) else none
  | .worker w =>
    match s.workers w with
    | .starting => some (workerTurn false w s)
    | .ready => some (workerTurn false w s)
    | .woken timedOut => some (workerTurn timedOut w (unwait w s))
    | _ => none
  | .wakeWorker w =>
    if s.workers w = .waiting then some (s.setWorker w (.woken false)) else none
  | .timeout w =>
    if s.workers w = .waiting ∧ cfg.idle then some (s.setWorker w (.woken true)) else none
  | .resume w =>
    if s.workers w = .woken true then some (s.setWorker w .waiting) else none
  | .finish w =>
    match s.workers w with
    | .running t => some ({ s with finished := t :: s.finished }.setWorker w .ready)
    | _ => none
  | .join w =>
    match s.workers w with
    | .joining (v :: stale) =>
      if s.Exited v then some ((s.setWorker v .joined).setWorker w (.joining stale)) else none
    | _ => none
  | .leave w =>
    if s.workers w = .joining [] then some (leave w s) else none
  | .close => some (close s)
  | .callDestroy =>
    if s.destroy = .idle then some { s with destroy := .called } else none
  | .destroy =>
    match s.destroy with
    | .called => some { close s with destroy := .testing }
    | .testing => some (destroyTurn s)
    | .woken => some (destroyTurn s)
    | _ => none
  | .wakeDestroy =>
    if s.destroy = .blocked then some { s with destroy := .woken } else none
  | .joinRetired =>
    if s.destroy ≠ .joining then none
    else match s.retired with
    | [] => some { s with destroy := .done }
    | v :: rest => if s.Exited v then some ({ s with retired := rest }.setWorker v .joined) else none

end Coter.ThPool
