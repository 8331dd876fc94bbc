import Coter.Lib.Lts
import Coter.Sync.MsgQueue

/-!
# Timed condition waits

`ct_cond_wait_for`: a loop of lower-level waits up to a deadline, on a condition
variable with its mutex. A step of a thread goes up to the next release or
acquisition of the mutex, or is a reading of the clock. `cond_timedwait` measures
its wait on a clock that goes with `ct_gettick_ms`.
-/

namespace Coter.Cond

/-- The implementations of `cond_timedwait`. -/
inductive Platform
  | windows
  | darwin
  | clockwait
  | timedwait
  deriving DecidableEq, Repr

/-- How long the lower-level wait of `cond_timedwait` lasts at most. -/
def cut : Platform → Int → Int
  | .windows, timeoutMs => min timeoutMs (2 ^ 32 - 2)
  | .darwin, timeoutMs => timeoutMs
  | .clockwait, timeoutMs => timeoutMs
  | .timedwait, timeoutMs => min timeoutMs 1000

def int64Max : Int := 2 ^ 63 - 1

/-- The deadline of `ct_cond_wait_for`. -/
def deadline (timeoutMs start : Int) : Int :=
  if int64Max - start < timeoutMs then int64Max else start + timeoutMs

/-- Where a thread stands. `testing` is before the test `now >= deadline`, `sleeping`
inside `ct_cond_wait`, `blocked` inside `cond_timedwait` up to the time `expiry`. A woken
thread has left the condition variable and is re-acquiring the mutex. -/
inductive Pc
  | outside
  | testing (deadline : Int)
  | sleeping
  | blocked (deadline expiry : Int)
  | woken (deadline : Option Int) (result : Code)
  | returned (result : Code)
  deriving DecidableEq, Repr

/-- The thread is inside `ct_cond_wait_for` without the mutex. -/
def Pc.released : Pc → Bool
  | .sleeping | .blocked .. | .woken .. => true
  | .outside | .testing _ | .returned _ => false

/-- The thread waits on the condition variable. -/
def Pc.waits : Pc → Bool
  | .sleeping | .blocked .. => true
  | .outside | .testing _ | .woken .. | .returned _ => false

/-- The wait is over, and the call returns once it has the mutex. -/
def Pc.leaving : Pc → Bool
  | .woken none _ => true
  | .woken (some _) result => result ≠ .etimedout
  | .outside | .testing _ | .sleeping | .blocked .. | .returned _ => false

/-- A thread that waits is woken with this result. -/
def Pc.wake (result : Code) : Pc → Pc
  | .sleeping => .woken none result
  | .blocked deadline _ => .woken (some deadline) result
  | pc => pc

/-- A condition variable with its mutex and threads. Since a thread last called
`ct_cond_wait_for`, `notified` records a notification by the mutex's holder after the
call released the mutex, `missed` that such a notification did not end the call's wait,
and `again` that the call waited again after one. -/
structure Monitor where
  clock : Int
  owner : Option Nat
  pc : Nat → Pc
  notified : Nat → Bool
  missed : Nat → Bool
  again : Nat → Bool

def init : Monitor where
  clock := 0
  owner := none
  pc _ := .outside
  notified _ := false
  missed _ := false
  again _ := false

def Monitor.setPc (s : Monitor) (t : Nat) (pc : Pc) : Monitor :=
  { s with pc := Function.update s.pc t pc }

/-- A thread calls `ct_cond_wait_for`. -/
def Monitor.enter (s : Monitor) (t : Nat) : Monitor :=
  { s with
    notified := Function.update s.notified t false
    missed := Function.update s.missed t false }

/-- The waiters that are chosen wake up. -/
def Monitor.notify (s : Monitor) (holds : Bool) (chosen : Nat → Bool) : Monitor :=
  let pc (t : Nat) := if chosen t then (s.pc t).wake .ok else s.pc t
  { s with
    pc
    notified := fun t => s.notified t || holds && (s.pc t).released
    missed := fun t => s.missed t || holds && (s.pc t).released && !(pc t).leaving }

/-- A signal wakes a waiter, if there is one. -/
def Monitor.MayWake (n : Nat) (s : Monitor) : Option Nat → Prop
  | some t => (s.pc t).waits
  | none => ∀ t < n, !(s.pc t).waits

instance (n : Nat) (s : Monitor) : DecidablePred (s.MayWake n)
  | some t => inferInstanceAs (Decidable ((s.pc t).waits = true))
  | none => inferInstanceAs (Decidable (∀ t < n, _))

/-- Everything that can happen next, with the choices of the system. -/
inductive Label
  | tick (ms : Nat)
  | lock (t : Nat)
  | unlock (t : Nat)
  | signal (t : Nat) (woke : Option Nat)
  | broadcast (t : Nat)
  | waitFor (t : Nat) (timeoutMs : Int)
  /-- One turn of the loop, whose wait begins `lag` milliseconds after `now` was read. -/
  | test (t : Nat) (lag : Nat)
  /-- The lower-level wait fails before it releases the mutex. -/
  | fail (t : Nat) (errno : Int)
  /-- The lower-level wait times out. -/
  | expire (t : Nat)
  /-- A spurious wake-up, or an error of the lower-level wait. -/
  | wake (t : Nat) (result : Code)
  | acquire (t : Nat)
  | resume (t : Nat)
  deriving DecidableEq, Repr

/-- The next state; `none` where the label is not enabled. Times are those of
`ct_time64_t`, and there are `n` threads. -/
def step (p : Platform) (n : Nat) (s : Monitor) : Label → Option Monitor
  | .tick ms =>
    if s.clock + ms ≤ int64Max then some { s with clock := s.clock + ms } else none
  | .lock t =>
    if t < n ∧ s.owner = none ∧ s.pc t = .outside then some { s with owner := some t } else none
  | .unlock t =>
    if s.owner = some t ∧ s.pc t = .outside then some { s with owner := none } else none
  | .signal t woke =>
    if t < n ∧ s.pc t = .outside ∧ s.MayWake n woke then
      some (s.notify (s.owner = some t) (fun u => woke = some u))
    else none
  | .broadcast t =>
    if t < n ∧ s.pc t = .outside then some (s.notify (s.owner = some t) (fun _ => true)) else none
  | .waitFor t timeoutMs =>
    if s.owner = some t ∧ s.pc t = .outside ∧ timeoutMs ≤ int64Max then
      let s := s.enter t
      if timeoutMs < 0 then some ({ s with owner := none }.setPc t .sleeping)
      else if timeoutMs = 0 then some (s.setPc t (.returned .etimedout))
      else some (s.setPc t (.testing (deadline timeoutMs s.clock)))
    else none
  | .test t lag =>
    match s.pc t with
    | .testing deadline =>
      if deadline ≤ s.clock then some (s.setPc t (.returned .etimedout))
      else if s.clock + lag ≤ int64Max then
        let clock := s.clock + lag
        let expiry := clock + cut p (deadline - s.clock)
        let again := Function.update s.again t (s.again t || s.notified t)
        some ({ s with clock, owner := none, again }.setPc t (.blocked deadline expiry))
      else none
    | _ => none
  | .fail t errno =>
    match s.pc t with
    | .testing deadline =>
      if s.clock < deadline then some (s.setPc t (.returned (.error errno))) else none
    | _ => none
  | .expire t =>
    match s.pc t with
    | .blocked deadline expiry =>
      if expiry ≤ s.clock then some (s.setPc t (.woken (some deadline) .etimedout)) else none
    | _ => none
  | .wake t result =>
    if (s.pc t).waits ∧ result ≠ .etimedout then some (s.setPc t ((s.pc t).wake result)) else none
  | .acquire t =>
    match s.pc t with
    | .woken deadline result =>
      if s.owner = none then
        let s := { s with owner := some t }
        match deadline with
        | some d =>
          if result ≠ .etimedout then some (s.setPc t (.returned result))
          else some (s.setPc t (.testing d))
        | none => some (s.setPc t (.returned result))
      else none
    | _ => none
  | .resume t =>
    match s.pc t with
    | .returned _ => some (s.setPc t .outside)
    | _ => none

end Coter.Cond
