import Coter.Lib.ByteOrder
import Coter.Sync.MsgQueue

/-!
# The job pool

`ct_jobpool`: a fixed number of workers on one message queue. Threads `0` to `n - 1` are
the workers, the threads from `n` on are outside of the pool. A step is what a thread
does with the mutex of the queue held, as in `MsgQueue.step`, or a statement of its own
code. The clock that tells a worker when to yield has no effect on the state.

`started`, `finished` and `left` record what happened, for jobs numbered in the order
in which they were taken.
-/

namespace Coter

open Lib.ByteOrder
open MsgQueue (Answer System)

namespace JobPool

/-- `job_t` -/
structure Job where
  routine : BitVec 64
  arg : BitVec 64
  deriving DecidableEq, Repr

/-- `sizeof(job_t)` on a 64-bit platform. -/
def jobSize : Nat := 16

/-- The bytes of a `job_t`. -/
def Job.cells (host : Endian) (job : Job) : MsgQueue.Item :=
  encode host 8 job.routine.toNat ++ encode host 8 job.arg.toNat

/-- The `job_t` that bytes hold. -/
def Job.ofCells (host : Endian) (cells : MsgQueue.Item) : Job where
  routine := BitVec.ofNat 64 (decode host (Lib.Blocks.read cells 0 8))
  arg := BitVec.ofNat 64 (decode host (Lib.Blocks.read cells 8 8))

/-- Where a worker stands in `m_worker_thread`: in front of `ct_msgqueue_try_pop`, in
front of or inside `ct_msgqueue_pop`, with a job, in its routine, or gone. -/
inductive Worker
  | trying
  | popping
  | took (k : Nat) (job : Job)
  | running (k : Nat)
  | gone
  deriving DecidableEq, Repr

/-- A worker in its routine. -/
def Worker.runs : Worker → Bool
  | .running _ => true
  | _ => false

/-- Where `ct_jobpool_destroy` stands: not called, in front of `ct_msgqueue_close`, with
`i` workers joined, or back. -/
inductive Destroy
  | idle
  | closing
  | joining (i : Nat)
  | returned
  deriving DecidableEq, Repr

end JobPool

/-- A pool, with its threads. -/
structure JobPool where
  sys : System
  worker : Nat → JobPool.Worker
  destroy : JobPool.Destroy
  started : List (Nat × JobPool.Job)
  finished : List Nat
  left : Option (List MsgQueue.Item)

namespace JobPool

/-- `ct_jobpool_create` with `n` workers, when nothing it allocates fails. -/
def create (n jobMax : Nat) : Option JobPool :=
  if n = 0 ∨ jobMax = 0 then none
  else match MsgQueue.init (List.replicate (jobMax * jobSize) 0) jobSize jobMax with
    | (.ok, some q) =>
      some
        { sys := ⟨q, fun _ => none, [], []⟩
          worker := fun w => if w < n then .trying else .gone
          destroy := .idle
          started := []
          finished := []
          left := none }
    | _ => none

/-- `ct_jobpool_submit`, `ct_jobpool_try_submit` and `ct_jobpool_submit_for`. -/
inductive Submit
  | submit
  | trySubmit
  | submitFor (timeoutMs : Int)
  deriving DecidableEq, Repr

/-- The call on the queue that a submission makes. -/
def Submit.op (item : MsgQueue.Item) : Submit → MsgQueue.Op
  | submit => .push item
  | trySubmit => .tryPush item
  | submitFor timeoutMs => .pushFor item timeoutMs

/-- A step of the pool. A thread takes the mutex of the queue to submit a job, or back
from a condition wait; a worker goes on; `ct_jobpool_destroy` is called, closes the
queue, joins the next worker, or returns. -/
inductive Label
  | submit (t : Nat) (how : Submit) (job : Job) (start now : Int)
  | wake (t : Nat) (result : Code) (now : Int)
  | work (w : Nat) (start now : Int)
  | destroy
  | close
  | join
  | «return»
  deriving DecidableEq, Repr

/-- Where a thread stands after a call on the queue gave the answer `a`, when `k` jobs
were taken before. -/
def Worker.next (host : Endian) (k : Nat) : Worker → Option Answer → Worker
  | .trying, some (.popped .ok (some item)) => .took k (Job.ofCells host item)
  | .trying, _ => .popping
  | .popping, some (.popped .ok (some item)) => .took k (Job.ofCells host item)
  | .popping, some _ => .gone
  | w, _ => w

/-- The thread `t` has left the mutex of the queue. -/
def leave (host : Endian) (p : JobPool) (t : Nat) (r : Option Answer × System) : JobPool :=
  { p with
    sys := r.2
    worker := Function.update p.worker t ((p.worker t).next host p.sys.popped.length r.1) }

/-- What the worker `w` does next. -/
def work (host : Endian) (p : JobPool) (w : Nat) (start now : Int) : Except Fault JobPool :=
  match p.worker w with
  | .trying => do
    let r ← MsgQueue.step p.sys (.call w .tryPop start now)
    .ok (p.leave host w r)
  | .popping => do
    let r ← MsgQueue.step p.sys (.call w .pop start now)
    .ok (p.leave host w r)
  | .took k job =>
    if job.routine ≠ 0 then
      .ok { p with
        worker := Function.update p.worker w (.running k), started := p.started ++ [(k, job)] }
    else .ok { p with worker := Function.update p.worker w .trying }
  | .running k =>
    .ok { p with worker := Function.update p.worker w .trying, finished := p.finished ++ [k] }
  | .gone => .ok p

def step (host : Endian) (n : Nat) (p : JobPool) : Label → Except Fault (Option Answer × JobPool)
  | .submit t how job start now =>
    if job.routine = 0 then .ok (none, p)
    else do
      let r ← MsgQueue.step p.sys (.call t (how.op (job.cells host)) start now)
      .ok (r.1, p.leave host t r)
  | .wake t result now => do
    let r ← MsgQueue.step p.sys (.wake t result now)
    .ok (r.1, p.leave host t r)
  | .work w start now => do
    let p ← work host p w start now
    .ok (none, p)
  | .destroy => .ok (none, { p with destroy := .closing })
  | .close => do
    let r ← MsgQueue.step p.sys (.call n .close 0 0)
    .ok (r.1, { p with sys := r.2, destroy := .joining 0, left := some p.sys.q.queue.contents })
  | .join =>
    match p.destroy with
    | .joining i => .ok (none, { p with destroy := .joining (i + 1) })
    | _ => .ok (none, p)
  | .return => .ok (none, { p with destroy := .returned })

/-- Which steps can come next, with `m` threads outside of the pool. A job may submit
further jobs. Nobody outside submits while the pool is destroyed, and nobody is inside
a submission when it begins. -/
def Enabled (n m : Nat) (p : JobPool) : Label → Prop
  | .submit t _ _ _ _ => p.sys.waiting t = none ∧
      (n ≤ t ∧ t < n + m ∧ p.destroy = .idle ∨ (p.worker t).runs = true)
  | .wake t _ _ => p.sys.waiting t ≠ none
  | .work w _ _ => w < n ∧ p.sys.waiting w = none ∧ p.worker w ≠ .gone
  | .destroy => p.destroy = .idle ∧ ∀ t < n + m, n ≤ t → p.sys.waiting t = none
  | .close => p.destroy = .closing
  | .join =>
    match p.destroy with
    | .joining i => i < n ∧ p.worker i = .gone
    | _ => False
  | .return => p.destroy = .joining n

instance (n m : Nat) (p : JobPool) : DecidablePred (Enabled n m p)
  | .submit .. => inferInstanceAs (Decidable (_ ∧ _))
  | .wake .. => inferInstanceAs (Decidable (_ ≠ _))
  | .work .. => inferInstanceAs (Decidable (_ ∧ _))
  | .destroy => inferInstanceAs (Decidable (_ ∧ _))
  | .close => inferInstanceAs (Decidable (_ = _))
  | .join =>
    match h : p.destroy with
    | .joining i => decidable_of_iff (i < n ∧ p.worker i = .gone) (by simp [Enabled, h])
    | .idle | .closing | .returned => isFalse (by simp [Enabled, h])
  | .return => inferInstanceAs (Decidable (_ = _))

end JobPool

end Coter
