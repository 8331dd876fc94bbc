import Coter.Container.Queue

/-!
# The message queue

`ct_msgqueue`: a bounded queue with blocking, non-blocking and timed calls. A
call runs with the mutex held, from its lock, or the return of its condition
wait, to its unlock or the next wait. `start` and `now` are readings of the clock.
-/

namespace Coter

/-- What a call returns. `error` stands for any other error code of a wait. -/
inductive Code
  | ok
  | einval
  | epipe
  | eagain
  | etimedout
  | error (errno : Int)
  deriving DecidableEq, Repr

/-- `ct_msgqueue_t`, without its mutex and its condition variables. -/
structure MsgQueue where
  queue : Queue
  isShut : Bool
  deriving DecidableEq, Repr

namespace MsgQueue

abbrev Item := List UInt8

/-- `ct_msgqueue_init`. -/
def init (buffer : List UInt8) (byte max : Nat) : Code × Option MsgQueue :=
  if byte = 0 ∨ max = 0 then (.einval, none)
  else (.ok, some ⟨Queue.init buffer byte max, false⟩)

/-! ## The wait loops -/

/-- What one turn of a wait loop comes to: a return, or a wait of so many
milliseconds. -/
inductive Turn
  | returns (code : Code)
  | waits (waitMs : Int)
  deriving DecidableEq, Repr

/-- The deadline of a wait loop, whose addition is not guarded against overflow. -/
def deadline (timeoutMs start : Int) : Int := if 0 < timeoutMs then i64 (start + timeoutMs) else 0

/-- A turn of a loop that goes on while `blocked`. -/
def waitWhile (q : MsgQueue) (blocked : Bool) (timeoutMs deadline now : Int) : Turn :=
  if blocked then
    if q.isShut then .returns .epipe
    else if timeoutMs = 0 then .returns .etimedout
    else if 0 < timeoutMs then
      if deadline ≤ now then .returns .etimedout else .waits (deadline - now)
    else .waits timeoutMs
  else .returns (if q.isShut then .epipe else .ok)

/-- `msgqueue_wait_not_full`. -/
def waitNotFull (q : MsgQueue) (timeoutMs deadline now : Int) : Turn :=
  q.waitWhile q.queue.isFull timeoutMs deadline now

/-- `msgqueue_wait_not_empty`. -/
def waitNotEmpty (q : MsgQueue) (timeoutMs deadline now : Int) : Turn :=
  q.waitWhile q.queue.isEmpty timeoutMs deadline now

/-! ## Calls -/

inductive Want
  | push (item : Item)
  | pop
  deriving DecidableEq, Repr

/-- A call inside its wait loop. -/
structure Wait where
  want : Want
  timeoutMs : Int
  deadline : Int
  deriving DecidableEq, Repr

inductive Answer
  | pushed (item : Item) (code : Code)
  | popped (code : Code) (item : Option Item)
  | closed
  deriving DecidableEq, Repr

/-- How the mutex is given up: by a return or by a wait. -/
inductive Outcome
  | returns (a : Answer)
  | waits (w : Wait)
  deriving DecidableEq, Repr

/-- The end of a push, behind its wait loop. -/
def finishPush (q : MsgQueue) (item : Item) (code : Code) : Except Fault (Outcome × MsgQueue) :=
  if code = .ok then do
    let (_, queue) ← q.queue.enqueue item
    .ok (.returns (.pushed item code), { q with queue })
  else .ok (.returns (.pushed item code), q)

/-- The end of a pop, behind its wait loop. -/
def finishPop (q : MsgQueue) (code : Code) : Except Fault (Outcome × MsgQueue) :=
  if code = .ok then do
    let (item, queue) ← q.queue.dequeue
    .ok (.returns (.popped code item), { q with queue })
  else .ok (.returns (.popped code none), q)

/-- A turn of the wait loop of a call, and its end if the loop returns. -/
def goOn (q : MsgQueue) (w : Wait) (now : Int) : Except Fault (Outcome × MsgQueue) :=
  match w.want with
  | .push item =>
    match q.waitNotFull w.timeoutMs w.deadline now with
    | .returns code => q.finishPush item code
    | .waits _ => .ok (.waits w, q)
  | .pop =>
    match q.waitNotEmpty w.timeoutMs w.deadline now with
    | .returns code => q.finishPop code
    | .waits _ => .ok (.waits w, q)

/-- A call whose condition wait returned `result`. -/
def resume (q : MsgQueue) (w : Wait) (result : Code) (now : Int) :
    Except Fault (Outcome × MsgQueue) :=
  if result ≠ .ok then
    match w.want with
    | .push item => q.finishPush item result
    | .pop => q.finishPop result
  else q.goOn w now

/-- `ct_msgqueue_push_for`. -/
def pushFor (q : MsgQueue) (item : Item) (timeoutMs start now : Int) :
    Except Fault (Outcome × MsgQueue) :=
  if q.isShut then .ok (.returns (.pushed item .epipe), q)
  else q.goOn ⟨.push item, timeoutMs, deadline timeoutMs start⟩ now

/-- `ct_msgqueue_push`. -/
def push (q : MsgQueue) (item : Item) (start now : Int) : Except Fault (Outcome × MsgQueue) :=
  q.pushFor item (-1) start now

/-- `ct_msgqueue_pop_for`. -/
def popFor (q : MsgQueue) (timeoutMs start now : Int) : Except Fault (Outcome × MsgQueue) :=
  if q.isShut then .ok (.returns (.popped .epipe none), q)
  else q.goOn ⟨.pop, timeoutMs, deadline timeoutMs start⟩ now

/-- `ct_msgqueue_pop`. -/
def pop (q : MsgQueue) (start now : Int) : Except Fault (Outcome × MsgQueue) :=
  q.popFor (-1) start now

/-- `ct_msgqueue_try_push`. -/
def tryPush (q : MsgQueue) (item : Item) : Except Fault (Outcome × MsgQueue) :=
  if q.isShut then .ok (.returns (.pushed item .epipe), q)
  else if q.queue.isFull then .ok (.returns (.pushed item .eagain), q)
  else do
    let (_, queue) ← q.queue.enqueue item
    .ok (.returns (.pushed item .ok), { q with queue })

/-- `ct_msgqueue_try_pop`. -/
def tryPop (q : MsgQueue) : Except Fault (Outcome × MsgQueue) :=
  if q.isShut then .ok (.returns (.popped .epipe none), q)
  else if q.queue.isEmpty then .ok (.returns (.popped .eagain none), q)
  else do
    let (item, queue) ← q.queue.dequeue
    .ok (.returns (.popped .ok item), { q with queue })

/-- `ct_msgqueue_close`. -/
def close (q : MsgQueue) : Except Fault (Outcome × MsgQueue) :=
  .ok (.returns .closed, if !q.isShut then { q with isShut := true } else q)

inductive Op
  | push (item : Item)
  | tryPush (item : Item)
  | pushFor (item : Item) (timeoutMs : Int)
  | pop
  | tryPop
  | popFor (timeoutMs : Int)
  | close
  deriving DecidableEq, Repr

def call (q : MsgQueue) (start now : Int) : Op → Except Fault (Outcome × MsgQueue)
  | .push item => q.push item start now
  | .tryPush item => q.tryPush item
  | .pushFor item timeoutMs => q.pushFor item timeoutMs start now
  | .pop => q.pop start now
  | .tryPop => q.tryPop
  | .popFor timeoutMs => q.popFor timeoutMs start now
  | .close => q.close

/-! ## Threads -/

/-- The queue, the calls that wait, and the items of the calls that returned zero,
in the order in which they held the mutex. -/
structure System where
  q : MsgQueue
  waiting : Nat → Option Wait
  accepted : List Item
  popped : List Item

/-- A thread takes the mutex: to make a call, or back from a condition wait that
returned `result`. A wait may return at any time. -/
inductive Label
  | call (t : Nat) (op : Op) (start now : Int)
  | wake (t : Nat) (result : Code) (now : Int)
  deriving DecidableEq, Repr

def System.record (s : System) : Answer → System
  | .pushed item .ok => { s with accepted := s.accepted ++ [item] }
  | .popped .ok (some item) => { s with popped := s.popped ++ [item] }
  | _ => s

/-- The thread `t` gives up the mutex. -/
def System.leave (s : System) (t : Nat) (q : MsgQueue) : Outcome → Option Answer × System
  | .returns a =>
    (some a, { s with q, waiting := Function.update s.waiting t none }.record a)
  | .waits w => (none, { s with q, waiting := Function.update s.waiting t (some w) })

def step (s : System) : Label → Except Fault (Option Answer × System)
  | .call t op start now => do
    let (out, q) ← s.q.call start now op
    .ok (s.leave t q out)
  | .wake t result now =>
    match s.waiting t with
    | none => .ok (none, s)
    | some w => do
      let (out, q) ← s.q.resume w result now
      .ok (s.leave t q out)

end MsgQueue

end Coter
