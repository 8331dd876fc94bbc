import Coter.Sync.Ref

/-!
# An object that other threads look up

`ct_ref_put_mutex` and the users of one object: the mutex guards the table that
lists the object. A lookup holds the mutex while it takes its reference, and the
release callback removes the object, unlocks the mutex and destroys the object.

A step is one of the counter's accesses, or one statement of a user.
-/

namespace Coter.Ref

/-- Where a thread is: in `ct_ref_get`, in a lookup (`find` to `leave`), in
`ct_ref_put_mutex` (`put`), or in its release callback (`remove` to `destroy`). -/
inductive User
  | idle
  | get
  | find
  | look
  | getNotZero
  | leave (found : Bool)
  | put
  | remove
  | unlock
  | destroy
  deriving DecidableEq, Repr

/-- A call that has returned. -/
inductive Result
  | get
  | find (found : Bool)
  | put (released : Nat)
  deriving DecidableEq, Repr

/-- `destroyed` counts the runs of `object_destroy`, `useAfterFree` records that
the counter was accessed after one, `results` what the calls returned, with their threads. -/
structure Table where
  counter : State
  listed : Bool
  destroyed : Nat
  useAfterFree : Bool
  users : Nat → User
  results : List (Nat × Result)

namespace Table

/-- The thread `t` has initialised the object and listed it. -/
def start (t : Nat) : Table where
  counter := init t
  listed := true
  destroyed := 0
  useAfterFree := false
  users _ := .idle
  results := []

def goto (s : Table) (t : Nat) (user : User) : Table :=
  { s with users := fun u => if u = t then user else s.users u }

def finish (s : Table) (t : Nat) (result : Result) : Table :=
  { s.goto t .idle with results := (t, result) :: s.results }

def setCounter (s : Table) (counter : State) : Table := { s with counter := counter }

/-- An access to the object's memory. -/
def touch (s : Table) : Table :=
  { s with useAfterFree := s.useAfterFree || decide (0 < s.destroyed) }

/-- How a user goes on with the result of the counter's operation.
`ct_ref_put_mutex` runs the release callback if it is `true`. -/
def resume (s : Table) (t : Nat) (result : Bool) : Table :=
  match s.users t with
  | .get => s.finish t .get
  | .getNotZero => s.goto t (.leave result)
  | .put => if result then s.goto t .remove else s.finish t (.put 0)
  | .idle | .find | .look | .leave _ | .remove | .unlock | .destroy => s

end Table

/-- The mutex is not part of the object. -/
def Pc.accesses : Pc → Bool
  | .idle | .lock | .unlock => false
  | .inc | .incNotZero | .incNotZeroCas _ | .decAndTest _ | .decAndMutexLock
  | .decAndMutexLockCas _ | .saturate _ _ => true

namespace Table

/-- The next access of the counter's operation that the thread is in. -/
def operate (b : Backend) (t : Nat) (spurious : Bool) (s : Table) : Option Table :=
  (Ref.turn b t spurious s.counter).map fun c =>
    let s' := (if (s.counter.pcs t).accesses then s.touch else s).setCounter c
    if c.pcs t = .idle then s'.resume t (c.returns.head?.any Return.result) else s'

/-- A step of the counter's system, of which only the counter and the mutex change. -/
def within (b : Backend) (l : Ref.Label) (s : Table) : Option Table :=
  (Ref.step b s.counter l).map s.setCounter

/-- The next statement of the thread. -/
def turn (b : Backend) (t : Nat) (spurious : Bool) (s : Table) : Option Table :=
  match s.users t with
  | .idle => none
  | .get | .getNotZero | .put => s.operate b t spurious
  | .find => (s.within b (.lock t)).map (goto · t .look)
  | .look =>
    if s.listed then (s.within b (.call t .incNotZero)).map (goto · t .getNotZero)
    else some (s.goto t (.leave false))
  | .leave found => (s.within b (.unlock t)).map (finish · t (.find found))
  | .remove => some ({ s with listed := false }.goto t .unlock)
  | .unlock => (s.within b (.unlock t)).map (goto · t .destroy)
  | .destroy => some ({ s with destroyed := s.destroyed + 1 }.finish t (.put 1))

/-- A thread starts a call, takes its next step, or hands one of its references
to another thread. -/
inductive Label
  | get (t : Nat)
  | find (t : Nat)
  | put (t : Nat)
  | hand (t u : Nat)
  | turn (t : Nat) (spurious : Bool)
  deriving DecidableEq, Repr

def step (b : Backend) (s : Table) : Label → Option Table
  | .get t =>
    if s.users t = .idle then (s.within b (.call t .inc)).map (goto · t .get) else none
  | .find t => if s.users t = .idle then some (s.goto t .find) else none
  | .put t =>
    if s.users t = .idle then (s.within b (.call t .decAndMutexLock)).map (goto · t .put) else none
  | .hand t u => if s.users t = .idle then s.within b (.hand t u) else none
  | .turn t spurious => s.turn b t spurious

end Table

end Coter.Ref
