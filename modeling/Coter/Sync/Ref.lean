import Coter.Core.Machine
import Coter.Lib.Lts

/-!
# The reference counter

`ct_refcount`: a counter with one initial reference. Invalid operations poison
it instead of letting it wrap.

A step is one atomic access of a thread to the counter or to the mutex, with the
computation up to the next such access. The backend without atomics runs each
access, and the stores that follow it, as one section of a process-wide mutex.
Who holds a reference is recorded beside the counter.
-/

namespace Coter.Ref

/-- Largest valid live reference count. -/
def refcountMax : Nat := 0x7fffffff

/-- First poison value. -/
def refcountSaturated : Nat := 0xc0000000

inductive Saturation
  | addNotZeroOverflow
  | addOverflow
  | addUseAfterFree
  | subUseAfterFree
  deriving DecidableEq, Repr

def Saturation.code : Saturation → Nat
  | .addNotZeroOverflow => 0
  | .addOverflow => 1
  | .addUseAfterFree => 2
  | .subUseAfterFree => 3

/-- The value that `refcount_saturate` stores. -/
def poison (type : Saturation) : Nat := refcountSaturated + type.code

/-- The four implementations selected at compile time. -/
inductive Backend
  | gccSync
  | gccAtomic
  | win
  | mutex
  deriving DecidableEq, Repr

/-- Only `__atomic_compare_exchange_n` with its weak flag fails at random. -/
def Backend.weak (b : Backend) : Bool := b == .gccAtomic

inductive Op
  | inc
  | incNotZero
  | decAndTest
  | decAndMutexLock
  deriving DecidableEq, Repr

def Op.isDec : Op → Bool
  | .decAndTest | .decAndMutexLock => true
  | .inc | .incNotZero => false

/-- What a call does after its last access to the counter. `ct_refcount_inc`
returns nothing, written as `true`. -/
inductive After
  | ret (op : Op) (result : Bool)
  | unlock
  deriving DecidableEq, Repr

/-- The next access of a thread. -/
inductive Pc
  | idle
  | inc
  | incNotZero
  | incNotZeroCas (old : Nat)
  | decAndTest (locked : Bool)
  | decAndMutexLock
  | decAndMutexLockCas (value : Nat)
  | lock
  | unlock
  | saturate (type : Saturation) (after : After)
  deriving DecidableEq, Repr

/-- A call that has returned. -/
structure Return where
  thread : Nat
  op : Op
  result : Bool
  deriving DecidableEq, Repr

/-- The shared memory and the threads. `refs` lists the holder of each reference,
`owner` is the thread inside the mutex that `ct_refcount_dec_and_mutex_lock` is
given, `returns` records the finished calls. -/
structure State where
  value : Nat
  owner : Option Nat
  refs : List Nat
  pcs : Nat → Pc
  returns : List Return

/-- `ct_refcount_init`, on behalf of the thread `t`. -/
def init (t : Nat) : State where
  value := 1
  owner := none
  refs := [t]
  pcs _ := .idle
  returns := []

def State.goto (s : State) (t : Nat) (pc : Pc) : State :=
  { s with pcs := fun u => if u = t then pc else s.pcs u }

def State.finish (s : State) (t : Nat) : After → State
  | .ret op result => { s.goto t .idle with returns := ⟨t, op, result⟩ :: s.returns }
  | .unlock => s.goto t .unlock

/-- The thread now holds one more reference. -/
def State.acquire (s : State) (t : Nat) : State := { s with refs := t :: s.refs }

/-- The thread now holds one reference less. -/
def State.drop (s : State) (t : Nat) : State := { s with refs := s.refs.erase t }

def State.store (s : State) (value : Nat) : State := { s with value := value }

/-- `refcount_saturate`, then the rest of the call. It is a store of its own,
except inside a section of the process-wide mutex. -/
def State.saturate (s : State) (b : Backend) (t : Nat) (type : Saturation) (after : After) :
    State :=
  match b with
  | .mutex => (s.store (poison type)).finish t after
  | .gccSync | .gccAtomic | .win => s.goto t (.saturate type after)

/-! ## Increments -/

/-- `ct_refcount_inc`: the fetch-and-add and the check of the old value. -/
def incTurn (b : Backend) (t : Nat) (s : State) : State :=
  let s' := (s.acquire t).store (u32 (s.value + 1))
  if s.value = 0 then s'.saturate b t .addUseAfterFree (.ret .inc true)
  else if refcountMax ≤ s.value then s'.saturate b t .addOverflow (.ret .inc true)
  else s'.finish t (.ret .inc true)

/-- The new count after a value was read that is not zero, poison, or invalid. -/
def incNotZeroStore (b : Backend) (t : Nat) (s : State) : State :=
  let s' := (s.acquire t).store (u32 (s.value + 1))
  if refcountMax ≤ s.value then s'.saturate b t .addNotZeroOverflow (.ret .incNotZero true)
  else s'.finish t (.ret .incNotZero true)

/-- The body of the loop of `ct_refcount_inc_not_zero` up to the exchange, with
the value just read; the backend without atomics stores at once. -/
def incNotZeroTurn (b : Backend) (t : Nat) (s : State) : State :=
  if s.value = 0 then s.finish t (.ret .incNotZero false)
  else if refcountSaturated ≤ s.value then (s.acquire t).finish t (.ret .incNotZero true)
  else if refcountMax < s.value then
    (s.acquire t).saturate b t .addNotZeroOverflow (.ret .incNotZero true)
  else match b with
    | .mutex => incNotZeroStore b t s
    | .gccSync | .gccAtomic | .win => s.goto t (.incNotZeroCas s.value)

/-- The exchange. A failed one reads the counter again. -/
def incNotZeroCasTurn (b : Backend) (spurious : Bool) (t old : Nat) (s : State) : State :=
  if s.value = old ∧ (spurious && b.weak) = false then incNotZeroStore b t s
  else incNotZeroTurn b t s

/-! ## Decrements -/

/-- How `ct_refcount_dec_and_test` goes on with its result: it returns it, or
hands it to `ct_refcount_dec_and_mutex_lock`. -/
def decReturn (locked result : Bool) : After :=
  if locked then
    if result then .ret .decAndMutexLock true else .unlock
  else .ret .decAndTest result

/-- `ct_refcount_dec_and_test`: the fetch-and-sub and the check of the old value. -/
def decAndTestTurn (b : Backend) (locked : Bool) (t : Nat) (s : State) : State :=
  let s' := (s.drop t).store (u32 (s.value + (2 ^ 32 - 1)))
  if 1 < s.value ∧ s.value ≤ refcountMax then s'.finish t (decReturn locked false)
  else if s.value = 1 then s'.finish t (decReturn locked true)
  else s'.saturate b t .subUseAfterFree (decReturn locked false)

def decAndMutexLockStore (t : Nat) (s : State) : State :=
  ((s.drop t).store (u32 (s.value + (2 ^ 32 - 1)))).finish t (.ret .decAndMutexLock false)

/-- The body of the loop of `ct_refcount_dec_and_mutex_lock` up to the exchange,
with the value just read. -/
def decAndMutexLockTurn (b : Backend) (t : Nat) (s : State) : State :=
  if refcountSaturated ≤ s.value then (s.drop t).finish t (.ret .decAndMutexLock false)
  else if s.value = 1 then s.goto t .lock
  else if refcountMax < s.value then
    (s.drop t).saturate b t .subUseAfterFree (.ret .decAndMutexLock false)
  else if s.value < u32 (s.value + (2 ^ 32 - 1)) then
    (s.drop t).saturate b t .subUseAfterFree (.ret .decAndMutexLock false)
  else match b with
    | .mutex => decAndMutexLockStore t s
    | .gccSync | .gccAtomic | .win => s.goto t (.decAndMutexLockCas s.value)

/-- The exchange. A failed one reads the counter again. -/
def decAndMutexLockCasTurn (b : Backend) (spurious : Bool) (t value : Nat) (s : State) : State :=
  if s.value = value ∧ (spurious && b.weak) = false then decAndMutexLockStore t s
  else decAndMutexLockTurn b t s

/-! ## Steps -/

/-- A thread calls an operation, takes its next step, locks or unlocks the mutex
itself, or hands one of its references to another thread. -/
inductive Label
  | call (t : Nat) (op : Op)
  | turn (t : Nat) (spurious : Bool)
  | lock (t : Nat)
  | unlock (t : Nat)
  | hand (t u : Nat)
  deriving DecidableEq, Repr

/-- The first access of a call. -/
def Op.start : Op → Pc
  | .inc => .inc
  | .incNotZero => .incNotZero
  | .decAndTest => .decAndTest false
  | .decAndMutexLock => .decAndMutexLock

/-- Who may call what. Increments other than `ct_refcount_inc_not_zero` need a
reference, decrements give one up, and the mutex is not recursive. -/
def mayCall (s : State) (t : Nat) : Op → Bool
  | .inc | .decAndTest => decide (t ∈ s.refs)
  | .incNotZero => true
  | .decAndMutexLock => decide (t ∈ s.refs ∧ s.owner ≠ some t)

/-- The next access of the thread `t`. Nobody passes `ct_mutex_lock` while the
mutex is owned. -/
def turn (b : Backend) (t : Nat) (spurious : Bool) (s : State) : Option State :=
  match s.pcs t with
  | .idle => none
  | .inc => some (incTurn b t s)
  | .incNotZero => some (incNotZeroTurn b t s)
  | .incNotZeroCas old => some (incNotZeroCasTurn b spurious t old s)
  | .decAndTest locked => some (decAndTestTurn b locked t s)
  | .decAndMutexLock => some (decAndMutexLockTurn b t s)
  | .decAndMutexLockCas value => some (decAndMutexLockCasTurn b spurious t value s)
  | .lock =>
    if s.owner = none then some ({ s with owner := some t }.goto t (.decAndTest true)) else none
  | .unlock => some ({ s with owner := none }.finish t (.ret .decAndMutexLock false))
  | .saturate type after => some ((s.store (poison type)).finish t after)

def step (b : Backend) (s : State) : Label → Option State
  | .call t op =>
    if s.pcs t = .idle ∧ mayCall s t op then some (s.goto t op.start) else none
  | .turn t spurious => turn b t spurious s
  | .lock t =>
    if s.pcs t = .idle ∧ s.owner = none then some { s with owner := some t } else none
  | .unlock t =>
    if s.pcs t = .idle ∧ s.owner = some t then some { s with owner := none } else none
  | .hand t u =>
    if s.pcs t = .idle ∧ t ∈ s.refs then some ((s.drop t).acquire u) else none

end Coter.Ref
