import Coter.Lib.Monitor
import Coter.Sync.Cond

/-!
# The event

The portable `ct_event`: a mutex, a condition variable and a flag that a signal sets
and a wait clears. A step of a thread goes up to the next lock, unlock or wait, or is
one access to the flag under the mutex. A condition wait is one release, block and
re-acquisition.
-/

namespace Coter.Event

open Lib.Monitor

/-- Where a thread stands. A wait has a deadline or none. A woken thread has left the
condition variable and is re-acquiring the mutex; its wait returns `result`. -/
inductive Pc
  | outside
  | waitLock (deadline : Option Int)
  | signalLock
  | resetLock
  | test (deadline : Option Int)
  | blocked (deadline : Option Int)
  | woken (deadline : Option Int) (result : Code)
  | set
  | notify
  | clear
  | unlock (wait : Bool) (result : Code)
  deriving DecidableEq, Repr

/-- Between a lock and the next unlock or wait. -/
def Pc.inside : Pc → Bool
  | .test _ | .set | .notify | .clear | .unlock .. => true
  | .outside | .waitLock _ | .signalLock | .resetLock | .blocked _ | .woken .. => false

def Pc.isBlocked : Pc → Bool
  | .blocked _ => true
  | _ => false

/-- A blocked thread is woken, and its wait returns `result`. -/
def Pc.wake (result : Code) : Pc → Pc
  | .blocked deadline => .woken deadline result
  | pc => pc

/-- The flag `count_`, the mutex and the threads. `signals` counts the calls of
`ct_event_signal` that have set the flag, `released` the waits that returned 0. -/
structure State where
  m : Threads Pc
  count : Int
  clock : Nat
  signals : Nat
  released : Nat

/-- `ct_event_init`, at any time. -/
def init (clock : Nat) : State := ⟨.idle .outside, 0, clock, 0, 0⟩

/-- What `ct_event_timedwait` adds up. -/
def deadline (timeoutMs now : Nat) : Int := i64 (now + timeoutMs)

/-- `ct_event_timedwait` sees its deadline behind it. -/
def expired (now : Nat) : Option Int → Bool
  | none => false
  | some deadline => deadline ≤ now

/-- The test of the loop, and what follows the loop. -/
def State.test (s : State) (t : Nat) (deadline : Option Int) : State :=
  if s.count = 0 then
    if expired s.clock deadline then { s with m := s.m.goto t (.unlock true .etimedout) }
    else { s with m := s.m.leave t (.blocked deadline) }
  else { s with m := s.m.goto t (.unlock true .ok), count := 0 }

/-- The condition wait returns. -/
def State.reacquire (s : State) (t : Nat) (deadline : Option Int) (result : Code) : State :=
  if result = .ok then { s with m := s.m.enter t (.test deadline) }
  else { s with m := s.m.enter t (.unlock true result) }

/-- `ct_cond_signal`, which wakes `woke`. -/
def State.notify (s : State) (t : Nat) (woke : Option Nat) : State :=
  { s with m := (s.m.wake (Pc.wake .ok) (fun u => woke = some u)).goto t (.unlock false .ok) }

def State.unlock (s : State) (t : Nat) (wait : Bool) (result : Code) : State :=
  { s with
    m := s.m.leave t .outside
    released := if wait ∧ result = .ok then s.released + 1 else s.released }

/-- Everything that can happen next. A call begins, a thread takes its next step, with
the thread that its signal wakes, a condition wait fails before it releases the mutex,
or a blocked thread is woken without a signal. -/
inductive Label
  | tick (ms : Nat)
  | wait (t : Nat)
  | timedwait (t timeoutMs : Nat)
  | signal (t : Nat)
  | reset (t : Nat)
  | turn (t : Nat) (woke : Option Nat)
  | fail (t : Nat) (errno : Int)
  | wake (t : Nat) (result : Code)
  deriving DecidableEq, Repr

/-- The next step of the thread `t`, one of `n`. -/
def turn (n : Nat) (s : State) (t : Nat) (woke : Option Nat) : Option State :=
  match s.m.pc t with
  | .outside | .blocked _ => none
  | .waitLock deadline =>
    if s.m.owner = none then some { s with m := s.m.enter t (.test deadline) } else none
  | .signalLock => if s.m.owner = none then some { s with m := s.m.enter t .set } else none
  | .resetLock => if s.m.owner = none then some { s with m := s.m.enter t .clear } else none
  | .test deadline => some (s.test t deadline)
  | .woken deadline result =>
    if s.m.owner = none then some (s.reacquire t deadline result) else none
  | .set =>
    some { s with m := s.m.goto t .notify, count := 1, signals := s.signals + 1 }
  | .notify => if s.m.MayWake Pc.isBlocked n woke then some (s.notify t woke) else none
  | .clear => some { s with m := s.m.goto t (.unlock false .ok), count := 0 }
  | .unlock wait result => some (s.unlock t wait result)

/-- A thread that is outside begins a call. -/
def State.begin (s : State) (n t : Nat) (pc : Pc) : Option State :=
  if t < n ∧ s.m.pc t = .outside then some { s with m := s.m.goto t pc } else none

/-- The condition wait that comes next gives an error at once. -/
def State.fail (s : State) (t : Nat) (errno : Int) : Option State :=
  match s.m.pc t with
  | .test deadline =>
    if s.count = 0 ∧ !expired s.clock deadline then
      some { s with m := s.m.goto t (.unlock true (.error errno)) }
    else none
  | _ => none

/-- The next state; `none` where the label is not enabled. There are `n` threads. -/
def step (n : Nat) (s : State) : Label → Option State
  | .tick ms => some { s with clock := s.clock + ms }
  | .wait t => s.begin n t (.waitLock none)
  | .timedwait t timeoutMs => s.begin n t (.waitLock (some (deadline timeoutMs s.clock)))
  | .signal t => s.begin n t .signalLock
  | .reset t => s.begin n t .resetLock
  | .turn t woke => turn n s t woke
  | .fail t errno => s.fail t errno
  | .wake t result =>
    if (s.m.pc t).isBlocked then some { s with m := s.m.goto t ((s.m.pc t).wake result) } else none

end Coter.Event
