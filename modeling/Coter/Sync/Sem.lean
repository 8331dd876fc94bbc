import Coter.Lib.Monitor
import Coter.Sync.MsgQueue

/-!
# The semaphore

The portable `ct_sem`: a mutex, a condition variable and the number of tokens. A step of
a thread goes up to the next lock, unlock or wait, or is one access under the mutex. A
condition wait is one release, block and re-acquisition.

The clock is `CLOCK_REALTIME` in nanoseconds, for times that a `time_t` can hold, and
does not go back.
-/

namespace Coter.Sem

open Lib.Monitor

def nsPerSec : Nat := 1000000000

def nsPerMs : Nat := 1000000

/-- The `struct timespec` that `ct_sem_wait_for` waits up to, from a reading of the clock
and the timeout. -/
structure Limit where
  sec : Nat
  nsec : Nat
  readAt : Nat
  timeoutMs : BitVec 32
  normal : nsec < nsPerSec
  exact : sec * nsPerSec + nsec = readAt + timeoutMs.toNat * nsPerMs
  deriving DecidableEq

/-- What is added to `tv_nsec` before the carry. -/
def nsecSum (now : Nat) (timeoutMs : BitVec 32) : Nat :=
  now % nsPerSec + timeoutMs.toNat % 1000 * nsPerMs

/-- The computation of `ts` in `ct_sem_wait_for`. -/
def limit (now : Nat) (timeoutMs : BitVec 32) : Limit where
  sec := now / nsPerSec + timeoutMs.toNat / 1000 + nsecSum now timeoutMs / nsPerSec
  nsec := nsecSum now timeoutMs % nsPerSec
  readAt := now
  timeoutMs := timeoutMs
  normal := Nat.mod_lt _ (by decide)
  exact := by
    unfold nsecSum nsPerSec nsPerMs
    omega

/-- The time has come. -/
def Limit.reached (l : Limit) (now : Nat) : Bool := l.sec * nsPerSec + l.nsec ≤ now

inductive Call
  | wait
  | trywait
  | post
  | waitFor (timeoutMs : BitVec 32)
  deriving DecidableEq, Repr

/-- The waiting call of a thread that waits up to the limit, if it has one. -/
def waiting : Option Limit → Call
  | none => .wait
  | some l => .waitFor l.timeoutMs

/-- Where a thread stands. A woken thread has left the condition variable and is
re-acquiring the mutex; its wait returns `result`. At the unlock the call returns. -/
inductive Pc
  | outside
  | lock (call : Call)
  | reads (timeoutMs : BitVec 32)
  | test (limit : Option Limit)
  | blocked (limit : Option Limit)
  | woken (limit : Option Limit) (result : Code)
  | look
  | add
  | notify
  | unlock (call : Call) (result : Code)
  deriving DecidableEq

/-- Between a lock and the next unlock or wait. -/
def Pc.inside : Pc → Bool
  | .reads _ | .test _ | .look | .add | .notify | .unlock .. => true
  | .outside | .lock _ | .blocked _ | .woken .. => false

def Pc.isBlocked : Pc → Bool
  | .blocked _ => true
  | _ => false

/-- A blocked thread is woken, and its wait returns `result`. -/
def Pc.wake (result : Code) : Pc → Pc
  | .blocked limit => .woken limit result
  | pc => pc

/-- A wait that timed out, and when it came to know. -/
structure Timeout where
  readAt : Nat
  timeoutMs : BitVec 32
  reportedAt : Nat
  deriving DecidableEq, Repr

/-- A call that has returned. -/
structure Return where
  thread : Nat
  call : Call
  result : Code
  deriving DecidableEq, Repr

/-- The tokens `count_`, the mutex and the threads. `posted` counts the tokens that were
brought, `taken` those that were taken away, `timeouts` has the waits that gave up and
`returns` the calls that are over. -/
structure State where
  m : Threads Pc
  count : Nat
  clock : Nat
  posted : Nat
  taken : Nat
  timeouts : List Timeout
  returns : List Return

/-- `ct_sem_init`, at any time. -/
def init (value : Fin (2 ^ 32)) (clock : Nat) : State :=
  ⟨.idle .outside, value, clock, 0, 0, [], []⟩

/-- The first place of a call under the mutex. -/
def Call.first : Call → Pc
  | .wait => .test none
  | .trywait => .look
  | .post => .add
  | .waitFor timeoutMs => .reads timeoutMs

/-- `--count_` -/
def State.take (s : State) (t : Nat) (call : Call) : State :=
  { s with
    m := s.m.goto t (.unlock call .ok)
    count := u32 (s.count + (2 ^ 32 - 1))
    taken := s.taken + 1 }

/-- The test of the loop, and what follows the loop. -/
def State.test (s : State) (t : Nat) (limit : Option Limit) : State :=
  if s.count = 0 then { s with m := s.m.leave t (.blocked limit) } else s.take t (waiting limit)

/-- What `ct_sem_trywait` does under the mutex. -/
def State.look (s : State) (t : Nat) : State :=
  if s.count = 0 then { s with m := s.m.goto t (.unlock .trywait .eagain) }
  else s.take t .trywait

/-- The condition wait returns. Only `ct_sem_wait_for` tells a timeout from an error. -/
def State.reacquire (s : State) (t : Nat) (limit : Option Limit) (result : Code) : State :=
  match limit, result with
  | _, .ok => { s with m := s.m.enter t (.test limit) }
  | some l, .etimedout =>
    { s with
      m := s.m.enter t (.unlock (.waitFor l.timeoutMs) .etimedout)
      timeouts := ⟨l.readAt, l.timeoutMs, s.clock⟩ :: s.timeouts }
  | _, _ => { s with m := s.m.enter t (.unlock (waiting limit) .einval) }

/-- `++count_` -/
def State.add (s : State) (t : Nat) : State :=
  { s with m := s.m.goto t .notify, count := u32 (s.count + 1), posted := s.posted + 1 }

/-- `pthread_cond_signal`, which wakes `woke`. -/
def State.notify (s : State) (t : Nat) (woke : Option Nat) : State :=
  { s with m := (s.m.wake (Pc.wake .ok) (fun u => woke = some u)).goto t (.unlock .post .ok) }

/-- The call unlocks and returns. -/
def State.unlock (s : State) (t : Nat) (call : Call) (result : Code) : State :=
  { s with m := s.m.leave t .outside, returns := ⟨t, call, result⟩ :: s.returns }

/-- Everything that can happen next. A call begins, a thread takes its next step, with
the thread that its signal wakes, a condition wait fails before it releases the mutex,
or a blocked thread is woken without a signal or times out. -/
inductive Label
  | tick (ns : Nat)
  | call (t : Nat) (call : Call)
  | turn (t : Nat) (woke : Option Nat)
  | fail (t : Nat)
  | wake (t : Nat)
  | expire (t : Nat)
  deriving DecidableEq, Repr

/-- The next step of the thread `t`, one of `n`. -/
def turn (n : Nat) (s : State) (t : Nat) (woke : Option Nat) : Option State :=
  match s.m.pc t with
  | .outside | .blocked _ => none
  | .lock call => if s.m.owner = none then some { s with m := s.m.enter t call.first } else none
  | .reads timeoutMs => some { s with m := s.m.goto t (.test (some (limit s.clock timeoutMs))) }
  | .test limit => some (s.test t limit)
  | .woken limit result =>
    if s.m.owner = none then some (s.reacquire t limit result) else none
  | .look => some (s.look t)
  | .add => some (s.add t)
  | .notify => if s.m.MayWake Pc.isBlocked n woke then some (s.notify t woke) else none
  | .unlock call result => some (s.unlock t call result)

/-- The condition wait that comes next gives an error at once. -/
def State.fail (s : State) (t : Nat) : Option State :=
  match s.m.pc t with
  | .test limit =>
    if s.count = 0 then some { s with m := s.m.goto t (.unlock (waiting limit) .einval) } else none
  | _ => none

/-- The condition wait times out. -/
def State.expire (s : State) (t : Nat) : Option State :=
  match s.m.pc t with
  | .blocked (some l) =>
    if l.reached s.clock then some { s with m := s.m.goto t (.woken (some l) .etimedout) } else none
  | _ => none

/-- The next state; `none` where the label is not enabled. There are `n` threads. -/
def step (n : Nat) (s : State) : Label → Option State
  | .tick ns => some { s with clock := s.clock + ns }
  | .call t call =>
    if t < n ∧ s.m.pc t = .outside then some { s with m := s.m.goto t (.lock call) } else none
  | .turn t woke => turn n s t woke
  | .fail t => s.fail t
  | .wake t =>
    if (s.m.pc t).isBlocked then some { s with m := s.m.goto t ((s.m.pc t).wake .ok) } else none
  | .expire t => s.expire t

end Coter.Sem
