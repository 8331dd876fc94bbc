import Coter.Lib.Monitor
import Coter.Sync.Cond

/-!
# The wait group

A mutex, a condition variable and the number of tasks. A step of a thread goes up to the
next lock, unlock or wait, or is one access or one reading of the clock under the mutex.
A wait with a deadline goes through the loop of `ct_cond_wait_for`.
-/

namespace Coter.WaitGroup

open Lib.Monitor
open Cond (Platform)

/-- A call that waits: its timeout, if it has one, the clock that its deadline is computed
from, and how many deltas the wait group had taken when it began. -/
structure Wait where
  timeoutMs : Option (BitVec 64)
  readAt : Nat
  began : Nat
  deriving DecidableEq, Repr

/-- `deadline` in `ct_waitgroup_wait_for`. -/
def Wait.deadline (w : Wait) : Option Int :=
  w.timeoutMs.map fun timeoutMs => i64 (w.readAt + timeoutMs.toInt)

/-- A wait of `cond_timedwait`: the deadline of `ct_cond_wait_for` and when it times out. -/
structure Sleep where
  deadline : Int
  expiry : Int
  deriving DecidableEq, Repr

/-- Where a thread stands. `waits`, `testing` and `sleeps` are inside `ct_cond_wait_for`. A
woken thread is re-acquiring the mutex; it goes on with the loop there if `cond_timedwait`
timed out. A call that has added its delta keeps it up to its return. -/
inductive Pc
  | outside
  | addLock (delta : BitVec 32)
  | waitLock (w : Wait)
  | add (delta : BitVec 32)
  | broadcast (delta : BitVec 32)
  | test (w : Wait)
  | waits (w : Wait) (timeoutMs : Int)
  | testing (w : Wait) (deadline : Int)
  | sleeps (w : Wait) (deadline timeoutMs : Int)
  | blocked (w : Wait) (sleep : Option Sleep)
  | woken (w : Wait) (timedOut : Option Int)
  | unlock (delta : BitVec 32)
  | ret (w : Wait) (result : Bool)
  deriving DecidableEq, Repr

/-- Between a lock and the next unlock or wait. -/
def Pc.inside : Pc → Bool
  | .add _ | .broadcast _ | .test _ | .waits .. | .testing .. | .sleeps .. | .unlock _
  | .ret .. => true
  | .outside | .addLock _ | .waitLock _ | .blocked .. | .woken .. => false

/-- A blocked thread is woken, and its wait does not time out. -/
def Pc.wake : Pc → Pc
  | .blocked w _ => .woken w none
  | pc => pc

/-- A wait that returned, when, and after how many deltas. -/
structure Return where
  wait : Wait
  result : Bool
  endedAt : Nat
  ended : Nat
  deriving DecidableEq, Repr

/-- A call of `ct_waitgroup_add` or `ct_waitgroup_done` that returned. -/
structure Added where
  thread : Nat
  delta : BitVec 32
  deriving DecidableEq, Repr

/-- The number of tasks `counter_`, the mutex and the threads. `adds` has the deltas that
were added, in their order, `added` the calls that returned after they had added one,
`returns` the waits that are over, and `aborted` the delta that made the program abort. -/
structure State where
  m : Threads Pc
  counter : BitVec 32
  clock : Nat
  adds : List Int
  added : List Added
  returns : List Return
  aborted : Option (BitVec 32)

/-- `ct_waitgroup_init`, at any time. -/
def init (clock : Fin (2 ^ 63)) : State := ⟨.idle .outside, 0, clock, [], [], [], none⟩

/-- `next` in `ct_waitgroup_add`. -/
def State.next (s : State) (delta : BitVec 32) : Int := s.counter.toNat + delta.toInt

/-- `ct_waitgroup_add` under the mutex, up to the broadcast. -/
def State.add (s : State) (t : Nat) (delta : BitVec 32) : State :=
  if s.next delta < 0 ∨ 2 ^ 32 - 1 < s.next delta then { s with aborted := some delta }
  else
    let counter := BitVec.ofInt 32 (s.next delta)
    { s with
      m := s.m.goto t (if counter = 0 then .broadcast delta else .unlock delta)
      counter
      adds := s.adds ++ [delta.toInt] }

/-- `ct_cond_broadcast` -/
def State.broadcast (s : State) (t : Nat) (delta : BitVec 32) : State :=
  { s with m := (s.m.wake Pc.wake (fun _ => true)).goto t (.unlock delta) }

/-- A call that has added its delta unlocks and returns. -/
def State.unlock (s : State) (t : Nat) (delta : BitVec 32) : State :=
  { s with m := s.m.leave t .outside, added := s.added ++ [⟨t, delta⟩] }

/-- The test of the loop, and what follows it up to the condition wait. -/
def State.test (s : State) (t : Nat) (w : Wait) : State :=
  if s.counter = 0 then { s with m := s.m.goto t (.ret w true) }
  else
    match w.deadline with
    | none => { s with m := s.m.leave t (.blocked w none) }
    | some deadline =>
      if deadline ≤ s.clock then { s with m := s.m.goto t (.ret w false) }
      else { s with m := s.m.goto t (.waits w (deadline - s.clock)) }

/-- A turn of the loop in `ct_cond_wait_for`, up to `cond_timedwait`. -/
def State.testing (s : State) (p : Platform) (t : Nat) (w : Wait) (deadline : Int) : State :=
  if deadline ≤ s.clock then { s with m := s.m.goto t (.test w) }
  else { s with m := s.m.goto t (.sleeps w deadline (Cond.cut p (deadline - s.clock))) }

/-- The condition wait, or the lower-level one, returns. -/
def State.reacquire (s : State) (t : Nat) (w : Wait) : Option Int → State
  | none => { s with m := s.m.enter t (.test w) }
  | some deadline => { s with m := s.m.enter t (.testing w deadline) }

/-- A wait unlocks and returns. -/
def State.ret (s : State) (t : Nat) (w : Wait) (result : Bool) : State :=
  { s with
    m := s.m.leave t .outside
    returns := ⟨w, result, s.clock, s.adds.length⟩ :: s.returns }

/-- Everything that can happen next. A call begins, a thread takes its next step, or a
lower-level wait fails before it releases the mutex, times out, or ends without a broadcast. -/
inductive Label
  | tick (ms : Nat)
  | add (t : Nat) (delta : BitVec 32)
  | done (t : Nat)
  | wait (t : Nat)
  | waitFor (t : Nat) (timeoutMs : BitVec 64)
  | turn (t : Nat)
  | fail (t : Nat)
  | expire (t : Nat)
  | wake (t : Nat)
  deriving DecidableEq, Repr

/-- A thread that is outside begins a call. -/
def State.begin (s : State) (t : Nat) (pc : Pc) : Option State :=
  if s.m.pc t = .outside then some { s with m := s.m.goto t pc } else none

/-- The beginning of `ct_waitgroup_wait_for`. -/
def State.waitFor (s : State) (timeoutMs : BitVec 64) : Wait :=
  if timeoutMs.toInt < 0 then ⟨none, s.clock, s.adds.length⟩
  else ⟨some timeoutMs, s.clock, s.adds.length⟩

/-- The next step of the thread `t`. -/
def turn (p : Platform) (s : State) (t : Nat) : Option State :=
  match s.m.pc t with
  | .outside | .blocked .. => none
  | .addLock delta => if s.m.owner = none then some { s with m := s.m.enter t (.add delta) } else none
  | .waitLock w => if s.m.owner = none then some { s with m := s.m.enter t (.test w) } else none
  | .add delta => some (s.add t delta)
  | .broadcast delta => some (s.broadcast t delta)
  | .test w => some (s.test t w)
  | .waits w timeoutMs =>
    some { s with m := s.m.goto t (.testing w (Cond.deadline timeoutMs s.clock)) }
  | .testing w deadline => some (s.testing p t w deadline)
  | .sleeps w deadline timeoutMs =>
    some { s with m := s.m.leave t (.blocked w (some ⟨deadline, s.clock + timeoutMs⟩)) }
  | .woken w timedOut => if s.m.owner = none then some (s.reacquire t w timedOut) else none
  | .unlock delta => some (s.unlock t delta)
  | .ret w result => some (s.ret t w result)

/-- The lower-level wait that comes next gives an error, at which `ct_cond_wait_for` returns. -/
def State.fail (s : State) (t : Nat) : Option State :=
  match s.m.pc t with
  | .sleeps w _ _ => some { s with m := s.m.goto t (.test w) }
  | _ => none

/-- The lower-level wait times out. -/
def State.expire (s : State) (t : Nat) : Option State :=
  match s.m.pc t with
  | .blocked w (some sleep) =>
    if sleep.expiry ≤ s.clock then some { s with m := s.m.goto t (.woken w (some sleep.deadline)) }
    else none
  | _ => none

/-- The condition wait ends on its own. -/
def State.wake (s : State) (t : Nat) : Option State :=
  match s.m.pc t with
  | .blocked w _ => some { s with m := s.m.goto t (.woken w none) }
  | _ => none

/-- The next state; `none` where the label is not enabled. Times are those of `ct_time64_t`,
and nothing happens in a program that has aborted. -/
def step (p : Platform) (s : State) (l : Label) : Option State :=
  if s.aborted = none then
    match l with
    | .tick ms => if s.clock + ms < 2 ^ 63 then some { s with clock := s.clock + ms } else none
    | .add t delta => s.begin t (.addLock delta)
    | .done t => s.begin t (.addLock (-1))
    | .wait t => s.begin t (.waitLock ⟨none, s.clock, s.adds.length⟩)
    | .waitFor t timeoutMs => s.begin t (.waitLock (s.waitFor timeoutMs))
    | .turn t => turn p s t
    | .fail t => s.fail t
    | .expire t => s.expire t
    | .wake t => s.wake t
  else none

end Coter.WaitGroup
