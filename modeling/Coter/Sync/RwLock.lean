import Coter.Core.Machine
import Coter.Lib.Lts

/-!
# The readers-writer lock

The portable `ct_rwlock`: a mutex, two condition variables, the number of readers
and the number of writers that wait. A step is one section under the mutex, from a
lock or the return of a condition wait to the unlock or the next wait.
-/

namespace Coter

/-- `ct_rwlock_t`, without its mutex and condition variables. -/
structure RwLock where
  state : Int
  waitingWriters : Nat
  deriving DecidableEq, Repr

namespace RwLock

def intMax : Int := 2 ^ 31 - 1

def uintMax : Nat := 2 ^ 32 - 1

inductive Code
  | ok
  | einval
  | eagain
  | ebusy
  deriving DecidableEq, Repr

/-- A turn of a wait loop. -/
inductive Turn
  | returns (code : Code)
  | waits
  deriving DecidableEq, Repr

/-- Whom an unlock wakes up. -/
inductive Notice
  | nobody
  | signalWriter
  | broadcastReaders
  deriving DecidableEq, Repr

/-- `ct_rwlock_init`. -/
def init : RwLock := ⟨0, 0⟩

/-- The loop of `ct_rwlock_rdlock` and what follows it. -/
def rdlock (l : RwLock) : Turn × RwLock :=
  if l.state < 0 ∨ l.waitingWriters ≠ 0 then (.waits, l)
  else if l.state = intMax then (.returns .eagain, l)
  else (.returns .ok, { l with state := l.state + 1 })

/-- The loop of `ct_rwlock_wrlock` and what follows it. -/
def wrlock (l : RwLock) : Turn × RwLock :=
  if l.state ≠ 0 then
    if l.waitingWriters = uintMax then (.returns .eagain, l)
    else (.waits, { l with waitingWriters := u32 (l.waitingWriters + 1) })
  else (.returns .ok, { l with state := -1 })

/-- What `ct_rwlock_wrlock` does first when its wait returns. -/
def unwait (l : RwLock) : RwLock :=
  { l with waitingWriters := u32 (l.waitingWriters + (2 ^ 32 - 1)) }

/-- `ct_rwlock_tryrdlock`; the mutex may be taken. -/
def tryrdlock (l : RwLock) (taken : Bool) : Code × RwLock :=
  if taken then (.ebusy, l)
  else if l.state < 0 ∨ l.waitingWriters ≠ 0 then (.ebusy, l)
  else if l.state = intMax then (.eagain, l)
  else (.ok, { l with state := l.state + 1 })

/-- `ct_rwlock_trywrlock`. -/
def trywrlock (l : RwLock) (taken : Bool) : Code × RwLock :=
  if taken then (.ebusy, l)
  else if l.state ≠ 0 then (.ebusy, l)
  else (.ok, { l with state := -1 })

/-- `ct_rwlock_rdunlock`. -/
def rdunlock (l : RwLock) : Code × Notice × RwLock :=
  if l.state ≤ 0 then (.einval, .nobody, l)
  else
    let l := { l with state := l.state - 1 }
    if l.state = 0 ∧ l.waitingWriters ≠ 0 then (.ok, .signalWriter, l) else (.ok, .nobody, l)

/-- `ct_rwlock_wrunlock`. -/
def wrunlock (l : RwLock) : Code × Notice × RwLock :=
  if l.state ≠ -1 then (.einval, .nobody, l)
  else
    let l := { l with state := 0 }
    if l.waitingWriters ≠ 0 then (.ok, .signalWriter, l) else (.ok, .broadcastReaders, l)

/-! ## Threads -/

/-- The lock, the threads blocked on its condition variables, those that were woken
and are re-acquiring the mutex, and, once for each time, those that hold the lock. -/
structure System where
  lock : RwLock
  blockedReaders : List Nat
  blockedWriters : List Nat
  wokenReaders : List Nat
  wokenWriters : List Nat
  readers : List Nat
  writers : List Nat
  deriving DecidableEq, Repr

def start : System := ⟨init, [], [], [], [], [], []⟩

/-- The thread is not inside a call. -/
def System.Idle (s : System) (t : Nat) : Prop :=
  t ∉ s.blockedReaders ∧ t ∉ s.blockedWriters ∧ t ∉ s.wokenReaders ∧ t ∉ s.wokenWriters

instance (s : System) (t : Nat) : Decidable (s.Idle t) := inferInstanceAs (Decidable (_ ∧ _))

/-- The thread leaves `ct_rwlock_rdlock` or waits. -/
def System.afterRdlock (s : System) (t : Nat) : System :=
  match rdlock s.lock with
  | (.returns .ok, lock) => { s with lock, readers := t :: s.readers }
  | (.returns _, lock) => { s with lock }
  | (.waits, lock) => { s with lock, blockedReaders := t :: s.blockedReaders }

/-- The thread leaves `ct_rwlock_wrlock` or waits. -/
def System.afterWrlock (s : System) (t : Nat) : System :=
  match wrlock s.lock with
  | (.returns .ok, lock) => { s with lock, writers := t :: s.writers }
  | (.returns _, lock) => { s with lock }
  | (.waits, lock) => { s with lock, blockedWriters := t :: s.blockedWriters }

/-- A signal wakes a writer, if one is blocked. -/
def System.MayWake (s : System) : Notice → Option Nat → Prop
  | .signalWriter, some t => t ∈ s.blockedWriters
  | .signalWriter, none => s.blockedWriters = []
  | _, woke => woke = none

instance (s : System) (notice : Notice) (woke : Option Nat) : Decidable (s.MayWake notice woke) := by
  unfold System.MayWake
  split <;> infer_instance

def System.wakeWriter (s : System) (t : Nat) : System :=
  { s with blockedWriters := s.blockedWriters.erase t, wokenWriters := t :: s.wokenWriters }

def System.wakeReader (s : System) (t : Nat) : System :=
  { s with blockedReaders := s.blockedReaders.erase t, wokenReaders := t :: s.wokenReaders }

def System.notify (s : System) : Notice → Option Nat → System
  | .signalWriter, some t => s.wakeWriter t
  | .broadcastReaders, _ =>
    { s with blockedReaders := [], wokenReaders := s.blockedReaders ++ s.wokenReaders }
  | _, _ => s

/-- What a thread does next. `woke` is the writer that a signal wakes, and the last
four are a spurious wake-up and the return of a wait of a reader and of a writer. -/
inductive Label
  | rdlock (t : Nat)
  | wrlock (t : Nat)
  | tryrdlock (t : Nat) (taken : Bool)
  | trywrlock (t : Nat) (taken : Bool)
  | rdunlock (t : Nat) (woke : Option Nat)
  | wrunlock (t : Nat) (woke : Option Nat)
  | wakeReader (t : Nat)
  | wakeWriter (t : Nat)
  | resumeReader (t : Nat)
  | resumeWriter (t : Nat)
  deriving DecidableEq, Repr

/-- The next state; `none` where the label is not enabled. A thread unlocks what it
holds. -/
def step (s : System) : Label → Option System
  | .rdlock t => if s.Idle t then some (s.afterRdlock t) else none
  | .wrlock t => if s.Idle t then some (s.afterWrlock t) else none
  | .tryrdlock t taken =>
    if s.Idle t then
      match tryrdlock s.lock taken with
      | (.ok, lock) => some { s with lock, readers := t :: s.readers }
      | (_, lock) => some { s with lock }
    else none
  | .trywrlock t taken =>
    if s.Idle t then
      match trywrlock s.lock taken with
      | (.ok, lock) => some { s with lock, writers := t :: s.writers }
      | (_, lock) => some { s with lock }
    else none
  | .rdunlock t woke =>
    if s.Idle t ∧ t ∈ s.readers then
      match rdunlock s.lock with
      | (.ok, notice, lock) =>
        if s.MayWake notice woke then
          some ({ s with lock, readers := s.readers.erase t }.notify notice woke)
        else none
      | (_, _, lock) => some { s with lock }
    else none
  | .wrunlock t woke =>
    if s.Idle t ∧ t ∈ s.writers then
      match wrunlock s.lock with
      | (.ok, notice, lock) =>
        if s.MayWake notice woke then
          some ({ s with lock, writers := s.writers.erase t }.notify notice woke)
        else none
      | (_, _, lock) => some { s with lock }
    else none
  | .wakeReader t => if t ∈ s.blockedReaders then some (s.wakeReader t) else none
  | .wakeWriter t => if t ∈ s.blockedWriters then some (s.wakeWriter t) else none
  | .resumeReader t =>
    if t ∈ s.wokenReaders then
      some ({ s with wokenReaders := s.wokenReaders.erase t }.afterRdlock t)
    else none
  | .resumeWriter t =>
    if t ∈ s.wokenWriters then
      some ({ s with
        lock := unwait s.lock
        wokenWriters := s.wokenWriters.erase t }.afterWrlock t)
    else none

end RwLock

end Coter
