import Coter.Sync.Cond

/-!
# The only consumer of a message queue

Thread 0 calls `ct_msgqueue_pop_for` on a queue that other threads push to and
close. All of them meet at the mutex and at `not_empty_`. A producer that waits for
room does so on `not_full_`, which looks here as if it let go of the mutex.
-/

namespace Coter.PopFor

open MsgQueue (Wait)
open Cond (Platform Monitor)

/-- The monitor of `not_empty_`, the queue, the wait loop of thread 0 inside
`ct_msgqueue_pop_for`, and the producer between its enqueue and its signal. `inTime`
records that an item came before the deadline of the call, and `lost` that a call
returned `ETIMEDOUT` with such an item in the queue. -/
structure State where
  m : Monitor
  q : MsgQueue
  frame : Option Wait
  pending : Option Nat
  inTime : Bool
  lost : Bool

def start (q : MsgQueue) : State := ⟨Cond.init, q, none, none, false, false⟩

/-- What the threads do, with the choices of the system. The labels without a thread
are those of thread 0, which begins to wait `lag` milliseconds after a reading of the
clock. -/
inductive Label
  | tick (ms : Nat)
  | lock (t : Nat)
  | unlock (t : Nat)
  | enqueue (t : Nat) (item : MsgQueue.Item)
  | signal (t : Nat) (woke : Option Nat)
  | close (t : Nat)
  | pop (timeoutMs : Int) (late lag : Nat)
  | test (lag : Nat)
  | fail (errno : Int)
  | expire
  | wake (result : Code)
  | acquire
  /-- `ct_cond_wait_for` returns. -/
  | back (lag : Nat)
  deriving DecidableEq, Repr

/-- There is a call that has no deadline or has not reached it. -/
def early (clock : Int) : Option Wait → Bool
  | some w => w.timeoutMs < 0 ∨ clock < w.deadline
  | none => false

section

variable (p : Platform) (n : Nat)

/-- A step of the monitor. -/
def State.move (s : State) (l : Cond.Label) : Option State :=
  (Cond.step p n s.m l).map fun m => { s with m }

/-- The end of `ct_msgqueue_pop_for`. -/
def State.leave (s : State) (code : Code) : Option State :=
  match s.q.finishPop code with
  | .ok (_, q) =>
    let lost := s.lost || code = .etimedout && s.inTime && !s.q.queue.isEmpty
    { s with q, frame := none, inTime := false, lost }.move p n (.unlock 0)
  | .error _ => none

/-- A turn of `msgqueue_wait_not_empty`. -/
def State.turn (s : State) (w : Wait) (lag : Nat) : Option State :=
  match s.q.waitNotEmpty w.timeoutMs w.deadline s.m.clock with
  | .returns code => s.leave p n code
  | .waits waitMs => do
    let s ← s.move p n (.tick lag)
    let s ← s.move p n (.waitFor 0 waitMs)
    some { s with frame := some w }

def step (s : State) : Label → Option State
  | .tick ms => s.move p n (.tick ms)
  | .lock t => s.move p n (.lock t)
  | .unlock t => if s.pending = some t then none else s.move p n (.unlock t)
  | .enqueue t item =>
    if s.m.owner = some t ∧ s.m.pc t = .outside ∧ s.pending = none ∧ !s.q.isShut ∧
        !s.q.queue.isFull then
      match s.q.finishPush item .ok with
      | .ok (_, q) =>
        some { s with q, pending := some t, inTime := s.inTime || early s.m.clock s.frame }
      | .error _ => none
    else none
  | .signal t woke =>
    if s.pending = some t then { s with pending := none }.move p n (.signal t woke) else none
  | .close t =>
    if s.m.owner = some t ∧ s.m.pc t = .outside ∧ s.pending = none then
      if s.q.isShut then some s
      else { s with q := { s.q with isShut := true } }.move p n (.broadcast t)
    else none
  | .pop timeoutMs late lag => do
    let s ← s.move p n (.lock 0)
    let s := { s with inTime := !s.q.queue.isEmpty }
    if s.q.isShut then s.leave p n .epipe
    else
      let deadline := MsgQueue.deadline timeoutMs s.m.clock
      let s ← s.move p n (.tick late)
      s.turn p n ⟨.pop, timeoutMs, deadline⟩ lag
  | .test lag => s.move p n (.test 0 lag)
  | .fail errno => s.move p n (.fail 0 errno)
  | .expire => s.move p n (.expire 0)
  | .wake result => s.move p n (.wake 0 result)
  | .acquire => s.move p n (.acquire 0)
  | .back lag =>
    match s.frame, s.m.pc 0 with
    | some w, .returned result => do
      let s ← s.move p n (.resume 0)
      if result ≠ .ok then s.leave p n result else s.turn p n w lag
    | _, _ => none

end

end Coter.PopFor
