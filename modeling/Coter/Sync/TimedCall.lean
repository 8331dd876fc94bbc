import Coter.Lib.Lts
import Coter.Sync.Cond

/-!
# Calls with a timeout

`ct_msgqueue_push_for`, `ct_msgqueue_pop_for` and `ct_waitgroup_wait_for` compute a
deadline once and then wait in a loop under a mutex, each turn with what is left of the
timeout. Here any number of threads make such calls. Time passes between any two steps.
Of the two condition variables of a message queue one is enough, since wake-ups may be
spurious.
-/

namespace Coter

/-! ## The wait group -/

/-- `ct_waitgroup_t`, without its mutex and condition variable. -/
structure WaitGroup where
  counter : Nat
  deriving DecidableEq, Repr

namespace WaitGroup

/-- `ct_waitgroup_add`, which may abort. -/
def add (wg : WaitGroup) (delta : Int) : Option WaitGroup :=
  let next := wg.counter + delta
  if next < 0 ∨ 2 ^ 32 - 1 < next then none else some ⟨next.toNat⟩

/-- The deadline of `ct_waitgroup_wait_for`, whose addition is not guarded against
overflow. -/
def deadline (timeoutMs start : Int) : Int := if 0 ≤ timeoutMs then i64 (start + timeoutMs) else 0

/-- A turn of the loop of `ct_waitgroup_wait_for`, or of `ct_waitgroup_wait` if the
timeout is negative. The results `true` and `false` are written as `ok` and `etimedout`. -/
def waitFor (wg : WaitGroup) (timeoutMs deadline now : Int) : MsgQueue.Turn :=
  if 0 < wg.counter then
    if timeoutMs < 0 then .waits (-1)
    else if deadline ≤ now then .returns .etimedout
    else .waits (deadline - now)
  else .returns .ok

end WaitGroup

namespace TimedCall

open MsgQueue (Turn)
open Cond (Platform Monitor int64Max)

/-! ## Wait loops -/

/-- The data `D` under a mutex, calls that want `W` of it and wait for it in a loop, and
its other operations `O`. A positive timeout is added to the time of the call; the loop
gives up only behind that deadline, and waits up to it. -/
structure Loop (D W O : Type) where
  other : D → O → Option D
  /-- The deadline is computed with the mutex held. -/
  locked : Bool
  /-- A call does not return before its loop. -/
  admits : D → Bool
  /-- The timeout is added to the time. -/
  adds : Int → Bool
  deadline : (timeoutMs start : Int) → Int
  /-- A turn after a condition wait with a result, with `ok` for the first turn. -/
  turn : D → W → (timeoutMs deadline : Int) → Code → (now : Int) → Option (Turn × D)
  adds_nonneg : ∀ {timeoutMs}, adds timeoutMs = true → 0 ≤ timeoutMs
  adds_pos : ∀ {timeoutMs}, 0 < timeoutMs → adds timeoutMs = true
  deadline_eq : ∀ {timeoutMs start},
    0 < timeoutMs → deadline timeoutMs start = i64 (start + timeoutMs)
  gives_up : ∀ {d d' w timeoutMs dl result now}, 0 < timeoutMs →
    turn d w timeoutMs dl result now = some (.returns .etimedout, d') →
      result = .etimedout ∨ dl ≤ now
  waits : ∀ {d d' w timeoutMs dl result now ms}, 0 < timeoutMs →
    turn d w timeoutMs dl result now = some (.waits ms, d') → 0 < ms ∧ dl ≤ now + ms

/-- A call inside its loop, and when it read the clock. -/
structure Frame (W : Type) where
  want : W
  timeoutMs : Int
  start : Int
  deadline : Int

/-- A call that has reported a timeout. -/
structure Report where
  timeoutMs : Int
  start : Int
  reportedAt : Int
  deriving DecidableEq, Repr

/-- The mutex, the condition variable and the clock, the data, the calls inside their
loops, the timeouts that were reported, and whether the addition of a deadline has left
the range of `ct_time64_t`. -/
structure State (D W : Type) where
  m : Monitor
  data : D
  frame : Nat → Option (Frame W)
  reports : List Report
  overflowed : Bool

def start {D W : Type} (data : D) (clock : Fin (2 ^ 63)) : State D W where
  m := { Cond.init with clock := clock.val }
  data := data
  frame _ := none
  reports := []
  overflowed := false

/-- What the threads do: a step on the mutex or inside `ct_cond_wait_for`, another
operation, the first reading of the clock by a call, or a turn of its loop, which begins
to wait `lag` milliseconds after its reading of the clock. -/
inductive Label (W O : Type)
  | monitor (l : Cond.Label)
  | other (t : Nat) (op : O)
  | begin (t : Nat) (want : W) (timeoutMs : Int)
  | turn (t : Nat) (lag : Nat)
  deriving DecidableEq

section

variable {D W O : Type} (L : Loop D W O) (p : Platform) (n : Nat)

def State.move (s : State D W) (l : Cond.Label) : Option (State D W) :=
  (Cond.step p n s.m l).map fun m => { s with m }

/-- A call keeps the mutex until its loop gives it up. -/
def State.passes (s : State D W) : Cond.Label → Bool
  | .waitFor .. | .resume _ => false
  | .unlock t => (s.frame t).isNone
  | _ => true

def State.setFrame (s : State D W) (t : Nat) (f : Option (Frame W)) : State D W :=
  { s with frame := Function.update s.frame t f }

/-- The call returns. -/
def State.leave (s : State D W) (t : Nat) (f : Frame W) (code : Code) : State D W :=
  if code = .etimedout then
    { s.setFrame t none with reports := ⟨f.timeoutMs, f.start, s.m.clock⟩ :: s.reports }
  else s.setFrame t none

/-- A turn of the loop with the result of the last condition wait. -/
def State.go (s : State D W) (t : Nat) (f : Frame W) (result : Code) (lag : Nat) :
    Option (State D W) :=
  match L.turn s.data f.want f.timeoutMs f.deadline result s.m.clock with
  | none => none
  | some (.returns code, data) => ({ s with data }.leave t f code).move p n (.unlock t)
  | some (.waits ms, data) =>
    ({ s with data }.move p n (.tick lag)).bind fun s => s.move p n (.waitFor t ms)

/-- A thread that is outside begins a call, with any `int64_t` as its timeout. -/
def State.begin (s : State D W) (t : Nat) (want : W) (timeoutMs : Int) : Option (State D W) :=
  if t < n ∧ (s.frame t).isNone ∧ s.m.pc t = .outside ∧ (s.m.owner = some t ↔ L.locked) ∧
      L.admits s.data ∧ -(2 ^ 63) ≤ timeoutMs ∧ timeoutMs ≤ int64Max then
    let now := s.m.clock
    let overflows := L.adds timeoutMs ∧ i64 (now + timeoutMs) ≠ now + timeoutMs
    some { s.setFrame t (some ⟨want, timeoutMs, now, L.deadline timeoutMs now⟩) with
      overflowed := s.overflowed || overflows }
  else none

/-- The next state; `none` where the label is not enabled. There are `n` threads. -/
def step (s : State D W) : Label W O → Option (State D W)
  | .monitor l => if s.passes l then s.move p n l else none
  | .other t op =>
    if s.m.owner = some t ∧ s.m.pc t = .outside ∧ (s.frame t).isNone then
      (L.other s.data op).map fun data => { s with data }
    else none
  | .begin t want timeoutMs => s.begin L n t want timeoutMs
  | .turn t lag =>
    match s.frame t, s.m.pc t with
    | some f, .outside => if s.m.owner = some t then s.go L p n t f .ok lag else none
    | some f, .returned result =>
      (s.move p n (.resume t)).bind fun s => s.go L p n t f result lag
    | _, _ => none

end

/-! ## The two loops -/

/-- The test of the wait loop of a push or a pop. -/
def queueTest (q : MsgQueue) (timeoutMs deadline now : Int) : MsgQueue.Want → Turn
  | .push _ => q.waitNotFull timeoutMs deadline now
  | .pop => q.waitNotEmpty timeoutMs deadline now

/-- The end of a push or a pop. -/
def queueEnd (q : MsgQueue) (code : Code) : MsgQueue.Want → Option MsgQueue
  | .push item => (q.finishPush item code).toOption.map (·.2)
  | .pop => (q.finishPop code).toOption.map (·.2)

/-- A turn of the wait loop of a push or a pop, and the end of the call. -/
def queueTurn (q : MsgQueue) (want : MsgQueue.Want) (timeoutMs deadline : Int) (result : Code)
    (now : Int) : Option (Turn × MsgQueue) :=
  match if result ≠ .ok then .returns result else queueTest q timeoutMs deadline now want with
  | .waits ms => some (.waits ms, q)
  | .returns code => (queueEnd q code want).map fun q => (.returns code, q)

/-- The calls of a message queue that do not wait. -/
def queueOther (q : MsgQueue) : MsgQueue.Op → Option MsgQueue
  | .tryPush item => (q.tryPush item).toOption.map (·.2)
  | .tryPop => q.tryPop.toOption.map (·.2)
  | .close => q.close.toOption.map (·.2)
  | .push _ | .pushFor .. | .pop | .popFor _ => none

/-- With a positive timeout, a turn waits as long as the deadline is ahead. -/
theorem waitWhile_timed {q : MsgQueue} {blocked : Bool} {timeoutMs deadline now : Int}
    (pos : 0 < timeoutMs) :
    q.waitWhile blocked timeoutMs deadline now =
      if blocked ∧ ¬ q.isShut then
        if deadline ≤ now then .returns .etimedout else .waits (deadline - now)
      else .returns (if q.isShut then .epipe else .ok) := by
  have nonzero : timeoutMs ≠ 0 := by omega
  unfold MsgQueue.waitWhile
  rw [if_neg nonzero, if_pos pos]
  cases blocked with
  | false => rfl
  | true => cases q.isShut <;> rfl

theorem waitWhile_gives_up {q : MsgQueue} {blocked : Bool} {timeoutMs deadline now : Int}
    (pos : 0 < timeoutMs)
    (h : q.waitWhile blocked timeoutMs deadline now = .returns .etimedout) : deadline ≤ now := by
  rw [waitWhile_timed pos] at h
  split at h
  · split at h
    · assumption
    · cases h
  · split at h <;> cases h

theorem waitWhile_waits {q : MsgQueue} {blocked : Bool} {timeoutMs deadline now ms : Int}
    (pos : 0 < timeoutMs) (h : q.waitWhile blocked timeoutMs deadline now = .waits ms) :
    0 < ms ∧ deadline ≤ now + ms := by
  rw [waitWhile_timed pos] at h
  split at h
  · split at h
    · cases h
    · cases h
      omega
  · cases h

theorem queueTurn_test {q q' : MsgQueue} {want : MsgQueue.Want} {timeoutMs deadline now : Int}
    {result : Code} {turn : Turn}
    (h : queueTurn q want timeoutMs deadline result now = some (turn, q')) :
    turn = if result ≠ .ok then .returns result
      else queueTest q timeoutMs deadline now want := by
  unfold queueTurn at h
  split at h
  · rename_i ms hturn
    cases h
    exact hturn.symm
  · rename_i code hturn
    obtain ⟨q'', -, h⟩ := Option.map_eq_some_iff.1 h
    cases h
    exact hturn.symm

/-- The turn does to the queue what `resume` does. -/
theorem queueTurn_resume (q : MsgQueue) (w : MsgQueue.Wait) (result : Code) (now : Int) :
    (queueTurn q w.want w.timeoutMs w.deadline result now).map (·.2) =
      (q.resume w result now).toOption.map (·.2) := by
  obtain ⟨want, timeoutMs, deadline⟩ := w
  by_cases ok : result = .ok
  · subst ok
    cases want with
    | push item =>
      simp only [queueTurn, queueTest, queueEnd, MsgQueue.resume, MsgQueue.goOn, ne_eq,
        not_true_eq_false, if_false]
      cases q.waitNotFull timeoutMs deadline now with
      | returns code => simp [Option.map_map, Function.comp_def]
      | waits ms => rfl
    | pop =>
      simp only [queueTurn, queueTest, queueEnd, MsgQueue.resume, MsgQueue.goOn, ne_eq,
        not_true_eq_false, if_false]
      cases q.waitNotEmpty timeoutMs deadline now with
      | returns code => simp [Option.map_map, Function.comp_def]
      | waits ms => rfl
  · cases want <;>
      simp [queueTurn, queueEnd, MsgQueue.resume, ok, Option.map_map, Function.comp_def]

/-- `ct_msgqueue_push_for` and `ct_msgqueue_pop_for`, and with a negative timeout
`ct_msgqueue_push` and `ct_msgqueue_pop`. -/
def queueLoop : Loop MsgQueue MsgQueue.Want MsgQueue.Op where
  other := queueOther
  locked := true
  admits q := !q.isShut
  adds timeoutMs := 0 < timeoutMs
  deadline := MsgQueue.deadline
  turn := queueTurn
  adds_nonneg h := Int.le_of_lt (of_decide_eq_true h)
  adds_pos h := decide_eq_true h
  deadline_eq h := if_pos h
  gives_up {q q' want timeoutMs dl result now} pos h := by
    have hturn := queueTurn_test h
    split at hturn
    · cases hturn
      exact .inl rfl
    · cases want with
      | push item => exact .inr (waitWhile_gives_up pos hturn.symm)
      | pop => exact .inr (waitWhile_gives_up pos hturn.symm)
  waits {q q' want timeoutMs dl result now ms} pos h := by
    have hturn := queueTurn_test h
    split at hturn
    · cases hturn
    · cases want with
      | push item => exact waitWhile_waits pos hturn.symm
      | pop => exact waitWhile_waits pos hturn.symm

/-- `ct_waitgroup_wait_for`. The deadline is computed before the mutex is locked. -/
def groupLoop : Loop WaitGroup Unit Int where
  other := WaitGroup.add
  locked := false
  admits _ := true
  adds timeoutMs := 0 ≤ timeoutMs
  deadline := WaitGroup.deadline
  turn wg _ timeoutMs deadline _ now := some (wg.waitFor timeoutMs deadline now, wg)
  adds_nonneg h := of_decide_eq_true h
  adds_pos h := decide_eq_true (Int.le_of_lt h)
  deadline_eq h := if_pos (Int.le_of_lt h)
  gives_up {wg wg' _ timeoutMs dl result now} pos h := by
    have hturn : wg.waitFor timeoutMs dl now = .returns .etimedout := by
      simpa using congrArg (Option.map Prod.fst) h
    unfold WaitGroup.waitFor at hturn
    rw [if_neg (show ¬ timeoutMs < 0 by omega)] at hturn
    split at hturn
    · split at hturn
      · exact .inr ‹_›
      · cases hturn
    · cases hturn
  waits {wg wg' _ timeoutMs dl result now ms} pos h := by
    have hturn : wg.waitFor timeoutMs dl now = .waits ms := by
      simpa using congrArg (Option.map Prod.fst) h
    unfold WaitGroup.waitFor at hturn
    rw [if_neg (show ¬ timeoutMs < 0 by omega)] at hturn
    split at hturn
    · split at hturn
      · cases hturn
      · cases hturn
        omega
    · cases hturn

end TimedCall

end Coter
