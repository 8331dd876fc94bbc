import Coter.Lib.Monitor
import Coter.Sync.Cond

/-!
# The shutdown token

`ct_shutdown_token`: a flag that is set once, an optional deadline, an optional
callback, and a mutex with a condition variable for those who wait. A step of a thread
is one access to the flag, one reading of the clock, or one call on the mutex or the
condition variable. A condition wait is one release, block and re-acquisition.
-/

namespace Coter.ShutdownSignal

open Lib.Monitor
open Cond (int64Max)

/-! ## Deadlines -/

/-- A deadline `timeoutMs` from now, cut off at the largest time. -/
def deadlineAt (timeoutMs : Int) (now : Nat) : Int :=
  if int64Max - now < timeoutMs then int64Max else now + timeoutMs

/-- The deadline that `ct_timeout_signal_init` stores; -1 is none. -/
def timeoutDeadline (timeoutMs : Int) (now : Nat) : Int :=
  if timeoutMs < 0 then -1 else deadlineAt timeoutMs now

/-- `ct_timeout_signal_is_done`, if the flag is not set. -/
def expired (deadline : Int) (now : Nat) : Bool :=
  if 0 ≤ deadline then 0 ≤ i64 (now - deadline) else false

/-- `ct_timeout_signal_remaining`, if the flag is not set. -/
def remaining (deadline : Int) (now : Nat) : Int :=
  if deadline < 0 then -1
  else
    let diff := i64 (deadline - now)
    if diff ≤ 0 then 0 else diff

/-- The timeout of a call of `ct_shutdown_token_wait`, and when it read the clock. -/
structure Call where
  timeoutMs : Int
  calledAt : Nat
  deriving DecidableEq, Repr

def Call.userDeadline (c : Call) : Int :=
  if 0 ≤ c.timeoutMs then deadlineAt c.timeoutMs c.calledAt else 0

def Call.userRemain (c : Call) (now : Nat) : Int :=
  if 0 ≤ c.timeoutMs then i64 (c.userDeadline - now) else -1

/-- The caller's own deadline is reached. -/
def Call.late (c : Call) (now : Nat) : Bool := 0 ≤ c.timeoutMs ∧ c.userRemain now ≤ 0

/-- What is passed to `ct_cond_wait_for`. -/
def toWait (remain userRemain : Int) : Int :=
  if 0 < remain ∧ userRemain < 0 then remain
  else if remain < 0 ∧ 0 < userRemain then userRemain
  else if 0 < remain ∧ 0 < userRemain then min remain userRemain
  else -1

/-! ## Threads -/

/-- Where a thread stands: in `ct_shutdown_token_cancel` from `exchange` to `cancels`,
in `ct_shutdown_token_wait` from `waitLock` on. There the loop is `look` to `user`,
with the token's remaining time and when it was read, and the last test is `final` and
`finalClock`. `before` tells whether the token was done when the last test began. -/
inductive Pc
  | outside
  | exchange
  | cancelLock
  | broadcast
  | cancelUnlock
  | callback
  | cancels (first : Bool)
  | waitLock (call : Call)
  | look (call : Call)
  | lookClock (call : Call)
  | remain (call : Call)
  | remainClock (call : Call)
  | user (call : Call) (remain : Int) (readAt : Nat)
  | blocked (call : Call)
  | woken (call : Call)
  | final (call : Call)
  | finalClock (call : Call) (before : Bool)
  | unlock (call : Call) (before result : Bool)
  deriving DecidableEq, Repr

/-- Between a lock and the next unlock or wait. -/
def Pc.inside : Pc → Bool
  | .broadcast | .cancelUnlock | .look _ | .lookClock _ | .remain _ | .remainClock _ | .user ..
  | .final _ | .finalClock .. | .unlock .. => true
  | .outside | .exchange | .cancelLock | .callback | .cancels _ | .waitLock _ | .blocked _
  | .woken _ => false

def Pc.isBlocked : Pc → Bool
  | .blocked _ => true
  | _ => false

def Pc.wake : Pc → Pc
  | .blocked call => .woken call
  | pc => pc

/-- An inner wait: its duration, and when the call read the remaining times. -/
structure Inner where
  call : Call
  toWait : Int
  readAt : Nat
  userReadAt : Nat
  deriving DecidableEq, Repr

/-- A wait that has returned: whether the token was done before its last test and when
it returned, and whether its own deadline was reached. -/
structure Return where
  result : Bool
  before : Bool
  after : Bool
  late : Bool
  deriving DecidableEq, Repr

/-- The token, the clock and the threads. `cb` tells that the callback is not NULL.
Recorded are the threads that won the exchange, that the winner's broadcast is done, the
runs of the callback, the results of the cancels, the inner waits and the waits. -/
structure State where
  m : Threads Pc
  cancelled : Bool
  deadline : Int
  cb : Bool
  clock : Nat
  won : List Nat
  told : Bool
  callbacks : Nat
  cancels : List Bool
  inner : List Inner
  waits : List Return

/-- `ct_shutdown_token_init`, at the time `now`. -/
def init (timeoutMs : Int) (cb : Bool) (now : Fin (2 ^ 63)) : State where
  m := .idle .outside
  cancelled := false
  deadline := timeoutDeadline timeoutMs now
  cb := cb
  clock := now
  won := []
  told := false
  callbacks := 0
  cancels := []
  inner := []
  waits := []

/-- The token is cancelled or its deadline is reached. -/
def State.done (s : State) : Bool := s.cancelled || expired s.deadline s.clock

def State.goto (s : State) (t : Nat) (pc : Pc) : State := { s with m := s.m.goto t pc }

/-- `ct_mutex_lock`, which nobody passes while the mutex is owned. -/
def State.lock (s : State) (t : Nat) (pc : Pc) : Option State :=
  if s.m.owner = none then some { s with m := s.m.enter t pc } else none

/-- `ct_timeout_signal_cancel`. -/
def State.exchange (s : State) (t : Nat) : State :=
  if s.cancelled then s.goto t (.cancels false)
  else { s.goto t .cancelLock with cancelled := true, won := t :: s.won }

def State.broadcast (s : State) (t : Nat) : State :=
  { s with m := (s.m.wake Pc.wake (fun _ => true)).goto t .cancelUnlock, told := true }

def State.callback (s : State) (t : Nat) : State :=
  { s.goto t (.cancels true) with callbacks := if s.cb then s.callbacks + 1 else s.callbacks }

/-- The end of `ct_shutdown_token_cancel`. -/
def State.cancel (s : State) (t : Nat) (first : Bool) : State :=
  { s.goto t .outside with cancels := first :: s.cancels }

/-- The caller's deadline, and the inner wait. -/
def State.user (s : State) (t : Nat) (call : Call) (remain : Int) (readAt : Nat) : State :=
  if call.late s.clock then s.goto t (.final call)
  else
    { s with
      m := s.m.leave t (.blocked call)
      inner := ⟨call, toWait remain (call.userRemain s.clock), readAt, s.clock⟩ :: s.inner }

/-- The end of `ct_shutdown_token_wait`. -/
def State.wait (s : State) (t : Nat) (call : Call) (before result : Bool) : State :=
  { s with
    m := s.m.leave t .outside
    waits := ⟨result, before, s.done, call.late s.clock⟩ :: s.waits }

/-- The next step of a thread. -/
def turn (s : State) (t : Nat) : Option State :=
  match s.m.pc t with
  | .outside | .blocked _ => none
  | .exchange => some (s.exchange t)
  | .cancelLock => s.lock t .broadcast
  | .broadcast => some (s.broadcast t)
  | .cancelUnlock => some { s with m := s.m.leave t .callback }
  | .callback => some (s.callback t)
  | .cancels first => some (s.cancel t first)
  | .waitLock call | .woken call => s.lock t (.look call)
  | .look call => some (s.goto t (if s.cancelled then .final call else .lookClock call))
  | .lookClock call =>
    some (s.goto t (if expired s.deadline s.clock then .final call else .remain call))
  | .remain call => some (s.goto t (if s.cancelled then .final call else .remainClock call))
  | .remainClock call =>
    let remain := remaining s.deadline s.clock
    some (s.goto t (if remain = 0 then .final call else .user call remain s.clock))
  | .user call remain readAt => some (s.user t call remain readAt)
  | .final call =>
    some (s.goto t (if s.cancelled then .unlock call s.done true else .finalClock call s.done))
  | .finalClock call before =>
    some (s.goto t (.unlock call before (expired s.deadline s.clock)))
  | .unlock call before result => some (s.wait t call before result)

/-- Everything that can happen next: time passes, a call begins, a thread takes its next
step, or an inner wait ends without a broadcast. -/
inductive Label
  | tick (ms : Nat)
  | cancel (t : Nat)
  | wait (t : Nat) (timeoutMs : Int)
  | turn (t : Nat)
  | wake (t : Nat)
  deriving DecidableEq, Repr

/-- The next state; `none` where the label is not enabled. -/
def step (s : State) : Label → Option State
  | .tick ms => if s.clock + ms ≤ int64Max then some { s with clock := s.clock + ms } else none
  | .cancel t => if s.m.pc t = .outside then some (s.goto t .exchange) else none
  | .wait t timeoutMs =>
    if s.m.pc t = .outside then some (s.goto t (.waitLock ⟨timeoutMs, s.clock⟩)) else none
  | .turn t => turn s t
  | .wake t =>
    if (s.m.pc t).isBlocked then some (s.goto t (s.m.pc t).wake) else none

end Coter.ShutdownSignal
