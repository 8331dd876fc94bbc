import Coter.Lib.Wakeups
import Coter.Sync.CondRun
import Coter.Sync.MsgQueueRun

/-!
# The sleepers of a message queue

The system of `ct_msgqueue` with the threads that its condition variables wake. A thread
that waits is asleep, or it is woken and its condition wait will return as soon as it has the
mutex. On a platform that cuts its timeout, a thread whose lower-level wait timed out may
fall asleep again instead. A wait that fails at once is one that is woken with the error.
-/

namespace Coter.MsgQueue

open Lib.Wakeups

inductive Kind
  | push
  | pop
  deriving DecidableEq, Repr

def Want.kind : Want → Kind
  | .push _ => .push
  | .pop => .pop

/-- What a call of this kind takes: room for an item, or an item. -/
def tokens (q : MsgQueue) : Kind → Nat
  | .push => q.queue.max - q.queue.size
  | .pop => q.queue.size

/-- The system, and the results that the condition waits of the woken threads return. -/
structure Wakes where
  s : System
  woken : Nat → Option Code

namespace Wakes

def start (q : MsgQueue) : Wakes := ⟨MsgQueue.start q, fun _ => none⟩

/-- Where a thread stands towards the tokens of its kind. -/
def placeOf (kind : Kind) : Option Wait → Option Code → Place
  | some w, none => if w.want.kind = kind then .asleep else .away
  | some w, some .ok => if w.want.kind = kind then .attentive else .away
  | _, _ => .away

def place (s : Wakes) (kind : Kind) (t : Nat) : Place := placeOf kind (s.s.waiting t) (s.woken t)

/-- A signal wakes one of the first `n` threads, if any of them waits for it. -/
def MayWake (s : Wakes) (n : Nat) (kind : Kind) : Option Nat → Prop
  | some u => s.place kind u = .asleep
  | none => ∀ u < n, s.place kind u ≠ .asleep

instance (s : Wakes) (n : Nat) (kind : Kind) : DecidablePred (s.MayWake n kind)
  | some u => inferInstanceAs (Decidable (s.place kind u = .asleep))
  | none => inferInstanceAs (Decidable (∀ u < n, _))

/-- `ct_cond_signal`, which wakes `woke`. -/
def signal (s : Wakes) (n : Nat) (kind : Kind) (woke : Option Nat) : Option Wakes :=
  if s.MayWake n kind woke then
    match woke with
    | some u => some { s with woken := Function.update s.woken u (some .ok) }
    | none => some s
  else none

/-- Both calls of `ct_cond_broadcast`. -/
def broadcast (s : Wakes) : Wakes :=
  { s with woken := fun u =>
      if (s.s.waiting u).isSome ∧ s.woken u = none then some .ok else s.woken u }

/-- The notification that goes with an answer, on a queue that `wasShut` or not. -/
def notify (s : Wakes) (n : Nat) (wasShut : Bool) (woke : Option Nat) : Option Answer → Option Wakes
  | some (.pushed _ .ok) => s.signal n .pop woke
  | some (.popped .ok _) => s.signal n .push woke
  | some .closed => some (if wasShut then s else s.broadcast)
  | _ => some s

/-- The thread `t` has had the mutex and gives it up. -/
def leave (s : Wakes) (n t : Nat) (woke : Option Nat) :
    Except Fault (Option Answer × System) → Option Wakes
  | .ok (a, s') => (⟨s', Function.update s.woken t none⟩ : Wakes).notify n s.s.q.isShut woke a
  | .error _ => none

/-- A call, or the way back from a condition wait, each with the thread that its signal
wakes; a wait that ends on its own; and one that goes on. -/
inductive Label
  | call (t : Nat) (op : Op) (start now : Int) (woke : Option Nat)
  | back (t : Nat) (now : Int) (woke : Option Nat)
  | wake (t : Nat) (result : Code)
  | retry (t : Nat)
  deriving DecidableEq, Repr

/-- The loop of `ct_cond_wait_for` goes on. -/
def retry (p : Cond.Platform) (s : Wakes) (t : Nat) : Option Wakes :=
  match s.s.waiting t, s.woken t with
  | some w, some .etimedout =>
    if Cond.Uncut p w.timeoutMs then none
    else some { s with woken := Function.update s.woken t none }
  | _, _ => none

/-- The next state; `none` where the label is not enabled. There are `n` threads. -/
def step (p : Cond.Platform) (n : Nat) (s : Wakes) : Label → Option Wakes
  | .call t op start now woke =>
    if t < n ∧ Enabled s.s.q.queue.byte s.s (.call t op start now) then
      s.leave n t woke (MsgQueue.step s.s (.call t op start now))
    else none
  | .back t now woke =>
    match s.s.waiting t, s.woken t with
    | some _, some result => s.leave n t woke (MsgQueue.step s.s (.wake t result now))
    | _, _ => none
  | .wake t result =>
    match s.s.waiting t, s.woken t with
    | some _, none => some { s with woken := Function.update s.woken t (some result) }
    | _, _ => none
  | .retry t => s.retry p t

end Wakes

end Coter.MsgQueue
