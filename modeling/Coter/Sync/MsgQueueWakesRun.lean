import Coter.Lib.Lts
import Coter.Sync.MsgQueueWakes

/-!
# Runs of the sleepers

* `goOn_waits`, `goOn_refuses`: a wait loop goes on, or gives up, only without a token;
* `leave_inv`: what a thread does with the mutex;
* `msgqueue_wakes`: over every run each item and each free slot finds a woken thread while
  one of its kind is asleep, unless a timeout that was cut made a thread sleep on.
-/

namespace Coter.MsgQueue

open Lib.Lts Lib.Wakeups

/-! ## Calls that find no token -/

variable {q q' : MsgQueue} {w w' : Wait} {now : Int} {a : Answer} {code : Code}

/-- The call has nothing to take. -/
def Lacks (q : MsgQueue) (kind : Kind) : Prop := q.isShut = true ∨ q.tokens kind = 0

theorem tokens_full (h : q.queue.isFull = true) : q.tokens .push = 0 := by
  simp only [Queue.isFull, beq_iff_eq] at h
  simp [tokens, h]

theorem tokens_empty (h : q.queue.isEmpty = true) : q.tokens .pop = 0 := by
  simpa [Queue.isEmpty, tokens] using h

theorem waitWhile_waits {blocked : Bool} {timeoutMs deadline now ms : Int}
    (h : q.waitWhile blocked timeoutMs deadline now = .waits ms) :
    blocked = true ∧ q.isShut = false := by
  unfold waitWhile at h
  split at h
  · next blocked =>
    refine ⟨blocked, ?_⟩
    by_contra shut
    rw [if_pos (by simpa using shut)] at h
    cases h
  · cases h

theorem waitWhile_refuses {blocked : Bool} {timeoutMs deadline now : Int}
    (h : q.waitWhile blocked timeoutMs deadline now = .returns code) (refused : code ≠ .ok) :
    blocked = true ∨ q.isShut = true := by
  cases hb : blocked with
  | true => exact .inl rfl
  | false =>
    right
    by_contra opened
    rw [waitWhile, hb, if_neg nofun, if_neg opened] at h
    cases h
    exact refused rfl

theorem finishPush_returns {item : Item} {out : Outcome}
    (h : q.finishPush item code = .ok (out, q')) : ∃ a, out = .returns a ∧ a.code = some code := by
  unfold finishPush at h
  split at h
  · obtain ⟨r, -, h⟩ := ok_of_bind h
    cases h
    exact ⟨_, rfl, rfl⟩
  · cases h
    exact ⟨_, rfl, rfl⟩

theorem finishPop_returns {out : Outcome} (h : q.finishPop code = .ok (out, q')) :
    ∃ a, out = .returns a ∧ a.code = some code := by
  unfold finishPop at h
  split at h
  · obtain ⟨r, -, h⟩ := ok_of_bind h
    cases h
    exact ⟨_, rfl, rfl⟩
  · cases h
    exact ⟨_, rfl, rfl⟩

theorem goOn_waits (h : q.goOn w now = .ok (.waits w', q')) :
    w' = w ∧ q.isShut = false ∧ q.tokens w.want.kind = 0 := by
  unfold goOn at h
  cases hw : w.want with
  | push item =>
    rw [hw] at h
    dsimp only at h
    split at h
    · obtain ⟨a, returns, -⟩ := finishPush_returns h
      cases returns
    · next ms waits =>
      cases h
      obtain ⟨full, opened⟩ := waitWhile_waits waits
      exact ⟨rfl, opened, tokens_full full⟩
  | pop =>
    rw [hw] at h
    dsimp only at h
    split at h
    · obtain ⟨a, returns, -⟩ := finishPop_returns h
      cases returns
    · next ms waits =>
      cases h
      obtain ⟨empty, opened⟩ := waitWhile_waits waits
      exact ⟨rfl, opened, tokens_empty empty⟩

theorem goOn_refuses (h : q.goOn w now = .ok (.returns a, q')) (refused : a.code ≠ some .ok) :
    q.Lacks w.want.kind := by
  unfold goOn at h
  cases hw : w.want with
  | push item =>
    rw [hw] at h
    dsimp only at h
    split at h
    · next code returns =>
      obtain ⟨_, ⟨⟩, hcode⟩ := finishPush_returns h
      rw [hcode] at refused
      exact (waitWhile_refuses returns (by simpa using refused)).symm.imp_right tokens_full
    · cases h
  | pop =>
    rw [hw] at h
    dsimp only at h
    split at h
    · next code returns =>
      obtain ⟨_, ⟨⟩, hcode⟩ := finishPop_returns h
      rw [hcode] at refused
      exact (waitWhile_refuses returns (by simpa using refused)).symm.imp_right tokens_empty
    · cases h

theorem resume_waits {result : Code} (h : q.resume w result now = .ok (.waits w', q')) :
    w' = w ∧ q.isShut = false ∧ q.tokens w.want.kind = 0 := by
  unfold resume at h
  split at h
  · cases hw : w.want with
    | push item =>
      rw [hw] at h
      obtain ⟨a, returns, -⟩ := finishPush_returns h
      cases returns
    | pop =>
      rw [hw] at h
      obtain ⟨a, returns, -⟩ := finishPop_returns h
      cases returns
  · exact goOn_waits h

theorem call_waits {op : Op} {start : Int} (h : q.call start now op = .ok (.waits w, q')) :
    q.isShut = false ∧ q.tokens w.want.kind = 0 := by
  have loop {w₀ : Wait} (h : q.goOn w₀ now = .ok (.waits w, q')) :
      q.isShut = false ∧ q.tokens w.want.kind = 0 := by
    obtain ⟨rfl, none⟩ := goOn_waits h
    exact none
  cases op with
  | push item =>
    simp only [call, push, pushFor] at h
    split at h
    · cases h
    · exact loop h
  | pushFor item timeoutMs =>
    simp only [call, pushFor] at h
    split at h
    · cases h
    · exact loop h
  | pop =>
    simp only [call, pop, popFor] at h
    split at h
    · cases h
    · exact loop h
  | popFor timeoutMs =>
    simp only [call, popFor] at h
    split at h
    · cases h
    · exact loop h
  | tryPush item =>
    simp only [call, tryPush] at h
    split at h
    · cases h
    · split at h
      · cases h
      · obtain ⟨r, -, h⟩ := ok_of_bind h
        cases h
  | tryPop =>
    simp only [call, tryPop] at h
    split at h
    · cases h
    · split at h
      · cases h
      · obtain ⟨r, -, h⟩ := ok_of_bind h
        cases h
  | close => cases h

/-! ## Signals -/

def Kind.other : Kind → Kind
  | .push => .pop
  | .pop => .push

namespace Wakes

variable {p : Cond.Platform} {n : Nat} {s s' : Wakes} {t : Nat} {kind : Kind} {woke : Option Nat}

theorem placeOf_asleep {w : Option Wait} {woken : Option Code}
    (h : placeOf kind w woken = .asleep) : ∃ x, w = some x ∧ woken = none ∧ x.want.kind = kind := by
  unfold placeOf at h
  split at h
  · next x =>
    split at h
    · next same => exact ⟨x, rfl, rfl, same⟩
    · cases h
  · split at h <;> cases h
  · cases h

theorem placeOf_attentive {w : Option Wait} {woken : Option Code}
    (h : placeOf kind w woken = .attentive) :
    ∃ x, w = some x ∧ woken = some .ok ∧ x.want.kind = kind := by
  unfold placeOf at h
  split at h
  · split at h <;> cases h
  · next x =>
    split at h
    · next same => exact ⟨x, rfl, rfl, same⟩
    · cases h
  · cases h

theorem place_update (w : Option Wait) (woken : Option Code) :
    (fun u => placeOf kind (Function.update s.s.waiting t w u) (Function.update s.woken t woken u)) =
      Function.update (s.place kind) t (placeOf kind w woken) := by
  funext u
  by_cases hu : u = t
  · rw [hu, Function.update_self, Function.update_self, Function.update_self]
  · rw [Function.update_of_ne hu, Function.update_of_ne hu, Function.update_of_ne hu, place]

theorem place_woken (woken : Option Code) :
    place { s with woken := Function.update s.woken t woken } kind =
      Function.update (s.place kind) t (placeOf kind (s.s.waiting t) woken) := by
  rw [← place_update, Function.update_eq_self]
  rfl

/-- A signal wakes a thread of its kind and no other, or there is none. -/
theorem signal_spec (h : s.signal n kind woke = some s') : s'.s = s.s ∧
    s'.place kind.other = s.place kind.other ∧
    ((∃ u, s.place kind u = .asleep ∧ s'.place kind = Function.update (s.place kind) u .attentive) ∨
      (s'.place kind = s.place kind ∧ ∀ u < n, s.place kind u ≠ .asleep)) := by
  unfold signal at h
  obtain ⟨may, h⟩ := Option.ite_none_right_eq_some.1 h
  cases woke with
  | none =>
    cases h
    exact ⟨rfl, rfl, .inr ⟨rfl, may⟩⟩
  | some u =>
    cases h
    have asleep : s.place kind u = .asleep := may
    obtain ⟨w, waits, sleeps, same⟩ := placeOf_asleep asleep
    have other : w.want.kind ≠ kind.other := by
      rw [same]
      cases kind <;> nofun
    refine ⟨rfl, ?_, .inl ⟨u, asleep, ?_⟩⟩
    · rw [place_woken, waits]
      apply Function.update_eq_self_iff.2
      simp [placeOf, place, waits, sleeps, other]
    · rw [place_woken, waits]
      simp [placeOf, same]

/-! ## The invariant -/

structure Inv (n byte max : Nat) (s : Wakes) : Prop where
  base : MsgQueue.Inv byte max s.s
  bounded : ∀ t, s.s.waiting t ≠ none → t < n
  served : ∀ kind, Served n (s.place kind) (s.s.q.tokens kind)
  shut : s.s.q.isShut = true → ∀ kind t, s.place kind t ≠ .asleep

/-- What holds over a run. The queue is as its runs promise, while a thread is asleep each
token of its kind has a woken thread that will look for it, and a closed queue has no
sleepers. -/
structure Good (n max : Nat) (s : Wakes) : Prop where
  queue : MsgQueue.Good max s.s
  served : ∀ kind, (∃ t, s.place kind t = .asleep) →
    s.s.q.tokens kind ≤ attentive n (s.place kind)
  shut : s.s.q.isShut = true → ∀ kind t, s.place kind t ≠ .asleep

variable {byte max : Nat}

theorem Inv.below (i : Inv n byte max s) (asleep : s.place kind t = .asleep) : t < n := by
  obtain ⟨w, waits, -⟩ := placeOf_asleep asleep
  exact i.bounded t (by rw [waits]; nofun)

theorem Inv.good (i : Inv n byte max s) : Good n max s where
  queue := i.base.good
  served kind := fun ⟨t, asleep⟩ => i.served kind ⟨t, i.below asleep, asleep⟩
  shut := i.shut

/-! ## Giving up the mutex -/

/-- Where a thread goes that gives up the mutex. -/
def landing (kind : Kind) : Outcome → Place
  | .returns _ => .away
  | .waits w => if w.want.kind = kind then .asleep else .away

/-- The thread has given up the mutex, and nobody is notified yet. -/
def left (s : Wakes) (t : Nat) (q' : MsgQueue) (out : Outcome) : Wakes :=
  ⟨(s.s.leave t q' out).2, Function.update s.woken t none⟩

/-- What a thread has come to the mutex for: it is not asleep, and a woken one ends as a call of
its kind does, or finds nothing to take. -/
structure Comes (s : Wakes) (t : Nat) (out : Outcome) : Prop where
  awake : ∀ kind, s.place kind t ≠ .asleep
  waits : ∀ w, out = .waits w → s.s.q.isShut = false ∧ s.s.q.tokens w.want.kind = 0
  attends : ∀ kind, s.place kind t = .attentive → ∃ want : Want, want.kind = kind ∧
    want.Ends out ∧ ∀ a, out = .returns a → a.code ≠ some .ok → s.s.q.Lacks kind

theorem record_frame (s : System) (a : Answer) :
    (s.record a).q = s.q ∧ (s.record a).waiting = s.waiting := by
  unfold System.record
  split <;> exact ⟨rfl, rfl⟩

section Left

variable {q' : MsgQueue} {out : Outcome}

theorem left_q : (s.left t q' out).s.q = q' := by
  cases out with
  | returns a => exact (record_frame _ a).1
  | waits w => rfl

theorem left_waiting : (s.left t q' out).s.waiting =
    Function.update s.s.waiting t (match out with
      | .returns _ => none
      | .waits w => some w) := by
  cases out with
  | returns a => exact (record_frame _ a).2
  | waits w => rfl

theorem left_place : (s.left t q' out).place kind =
    Function.update (s.place kind) t (landing kind out) := by
  have lands : ∃ w, (s.left t q' out).s.waiting = Function.update s.s.waiting t w ∧
      placeOf kind w none = landing kind out := by
    cases out with
    | returns a => exact ⟨none, left_waiting, rfl⟩
    | waits w => exact ⟨some w, left_waiting, rfl⟩
  obtain ⟨w, waiting, landed⟩ := lands
  rw [← landed, ← place_update, ← waiting]
  rfl

theorem left_bounded (i : Inv n byte max s) (ht : t < n) :
    ∀ u, (s.left t q' out).s.waiting u ≠ none → u < n := by
  intro u hu
  rw [left_waiting, Function.update_apply] at hu
  split at hu
  · next same => rwa [same]
  · exact i.bounded u hu

theorem left_base (i : Inv n byte max s) (does : Does s.s.q out q') :
    MsgQueue.Inv byte max (s.left t q' out).s :=
  (leave_spec (l := .wake t .ok 0) i.base t does nofun).2

end Left

/-- A thread leaves the tokens as they are, and there were none for it to take. -/
theorem served_left (i : Inv n byte max s) (ht : t < n) {p : Place}
    (lands : p = .asleep → s.s.q.isShut = false ∧ s.s.q.tokens kind = 0)
    (attends : s.place kind t = .attentive → s.s.q.Lacks kind) :
    Served n (Function.update (s.place kind) t p) (s.s.q.tokens kind) := by
  by_cases shut : s.s.q.isShut = true
  · apply served_of_awake
    intro u _
    rw [Function.update_apply]
    split
    · intro asleep
      rw [(lands asleep).1] at shut
      cases shut
    · exact i.shut shut kind u
  · refine (i.served kind).move ht fun some => ⟨fun asleep => some (lands asleep).2, ?_⟩
    rw [if_neg fun attentive => some ((attends attentive).resolve_left shut)]
    omega

/-- The thread `t` takes a token and wakes a thread of the other kind for what it brought. -/
theorem served_taken (i : Inv n byte max s) (ht : t < n) {q' : MsgQueue} {out : Outcome}
    (returns : ∀ k, landing k out = .away)
    (away : s.place kind.other t ≠ .attentive) (took : q'.tokens kind + 1 = s.s.q.tokens kind)
    (brought : q'.tokens kind.other = s.s.q.tokens kind.other + 1)
    (h : (s.left t q' out).signal n kind.other woke = some s') :
    Served n (s'.place kind) (q'.tokens kind) ∧
      Served n (s'.place kind.other) (q'.tokens kind.other) := by
  obtain ⟨-, same, woken⟩ := signal_spec h
  have back : kind.other.other = kind := by cases kind <;> rfl
  rw [back, left_place, returns] at same
  rw [left_place, returns] at woken
  constructor
  · rw [same]
    refine (i.served kind).move ht fun _ => ⟨nofun, ?_⟩
    split <;> omega
  · rcases woken with ⟨u, asleep, woken⟩ | ⟨woken, awake⟩
    · have waits : s.place kind.other u = .asleep := by
        rw [Function.update_apply] at asleep
        split at asleep
        · cases asleep
        · exact asleep
      have moved : Served n (Function.update (s.place kind.other) t .away)
          (s.s.q.tokens kind.other) := by
        refine (i.served kind.other).move ht fun _ => ⟨nofun, ?_⟩
        rw [if_neg away]
        omega
      rw [woken, brought]
      refine moved.move (i.below waits) fun _ => ⟨nofun, ?_⟩
      rw [asleep]
      simp
    · rw [woken]
      exact served_of_awake awake

theorem signal_inv (kind : Kind) (i : Inv n byte max s) (ht : t < n) {q' : MsgQueue} {out : Outcome}
    (does : Does s.s.q out q') (isOpen : q'.isShut = false) (returns : ∀ k, landing k out = .away)
    (away : s.place kind.other t ≠ .attentive) (took : q'.tokens kind + 1 = s.s.q.tokens kind)
    (brought : q'.tokens kind.other = s.s.q.tokens kind.other + 1)
    (h : (s.left t q' out).signal n kind.other woke = some s') : Inv n byte max s' := by
  have kept : s'.s = (s.left t q' out).s := (signal_spec h).1
  obtain ⟨mine, others⟩ := served_taken i ht returns away took brought h
  constructor
  · rw [kept]
    exact left_base i does
  · rw [kept]
    exact left_bounded i ht
  · intro k
    rw [kept, left_q]
    cases kind <;> cases k <;> assumption
  · intro shut
    rw [kept, left_q, isOpen] at shut
    cases shut

theorem notify_refused {wasShut : Bool} {a : Answer} {code : Code} (h : a.code = some code)
    (refused : code ≠ .ok) : s.notify n wasShut woke (some a) = some s := by
  cases a with
  | pushed item c =>
    cases h
    cases code with
    | ok => exact absurd rfl refused
    | einval | epipe | eagain | etimedout | error => rfl
  | popped c item =>
    cases h
    cases code with
    | ok => exact absurd rfl refused
    | einval | epipe | eagain | etimedout | error => rfl
  | closed => cases h

/-- A thread that leaves the queue as it was and tells nobody. -/
theorem left_inv (i : Inv n byte max s) (ht : t < n) {out : Outcome} (does : Does s.s.q out s.s.q)
    (lands : ∀ k, landing k out = .asleep → s.s.q.isShut = false ∧ s.s.q.tokens k = 0)
    (attends : ∀ k, s.place k t = .attentive → s.s.q.Lacks k) :
    Inv n byte max (s.left t s.s.q out) := by
  constructor
  · exact left_base i does
  · exact left_bounded i ht
  · intro k
    rw [left_place, left_q]
    exact served_left i ht (lands k) (attends k)
  · intro shut k u
    rw [left_q] at shut
    rw [left_place, Function.update_apply]
    split
    · intro asleep
      rw [(lands k asleep).1] at shut
      cases shut
    · exact i.shut shut k u

theorem broadcast_awake (s : Wakes) (k : Kind) (u : Nat) : s.broadcast.place k u ≠ .asleep := by
  intro asleep
  obtain ⟨w, waits, sleeps, -⟩ := placeOf_asleep asleep
  have waits : s.s.waiting u = some w := waits
  simp only [broadcast, waits, Option.isSome_some, true_and] at sleeps
  split at sleeps
  · cases sleeps
  · next woken => exact woken sleeps

/-- After a broadcast nobody is asleep, nor on a queue that was closed before. -/
theorem closes_inv (i : Inv n byte max s) (ht : t < n)
    (h : (s.left t { s.s.q with isShut := true } (.returns .closed)).notify n s.s.q.isShut woke
      (some .closed) = some s') : Inv n byte max s' := by
  have base := left_base (t := t) i .closes
  have bounded : ∀ u, (s.left t { s.s.q with isShut := true } (.returns .closed)).s.waiting u ≠ none →
      u < n := left_bounded i ht
  have awake : s'.s = (s.left t { s.s.q with isShut := true } (.returns .closed)).s ∧
      ∀ k u, s'.place k u ≠ .asleep := by
    cases h
    split
    · next shut =>
      refine ⟨rfl, fun k u => ?_⟩
      rw [left_place, Function.update_apply]
      split
      · nofun
      · exact i.shut shut k u
    · exact ⟨rfl, broadcast_awake _⟩
  obtain ⟨kept, awake⟩ := awake
  constructor
  · rw [kept]
    exact base
  · rw [kept]
    exact bounded
  · exact fun k => served_of_awake fun u _ => awake k u
  · exact fun _ => awake

theorem leave_inv (i : Inv n byte max s) (ht : t < n) {q' : MsgQueue} {out : Outcome}
    (does : Does s.s.q out q') (comes : s.Comes t out)
    (h : (s.left t q' out).notify n s.s.q.isShut woke (s.s.leave t q' out).1 = some s') :
    Inv n byte max s' := by
  have size : s.s.q.contents.length = s.s.q.queue.size := Queue.contents_length _
  have most := i.base.valid.size
  have moved (queue : Queue) : queue.contents.length = queue.size := Queue.contents_length _
  cases does with
  | waits w fits =>
    cases h
    refine left_inv i ht (.waits w fits) ?_ ?_
    · intro k asleep
      obtain ⟨isOpen, none⟩ := comes.waits w rfl
      simp only [landing, ite_eq_left_iff, reduceCtorEq, imp_false, not_not] at asleep
      exact ⟨isOpen, asleep ▸ none⟩
    · intro k attentive
      obtain ⟨want, rfl, rfl, -⟩ := comes.attends k attentive
      exact .inr (comes.waits w rfl).2
  | refuses a code hcode refused =>
    rw [show (s.s.leave t s.s.q (.returns a)).1 = some a from rfl,
      notify_refused hcode refused] at h
    cases h
    refine left_inv i ht (.refuses a code hcode refused) nofun ?_
    intro k attentive
    obtain ⟨want, rfl, -, lacks⟩ := comes.attends k attentive
    exact lacks a rfl (by rw [hcode]; simpa using refused)
  | closes => exact closes_inv i ht h
  | pushes item queue isOpen valid hmax hbyte contents =>
    have longer := congrArg List.length contents
    rw [moved, List.length_append, size, List.length_singleton] at longer
    have bound := valid.size
    refine signal_inv .push i ht (.pushes item queue isOpen valid hmax hbyte contents) isOpen
      (fun _ => rfl) ?_ ?_ longer h
    · intro attentive
      obtain ⟨want, pops, ends, -⟩ := comes.attends _ attentive
      cases want with
      | push item => cases pops
      | pop => exact ends
    · simp only [tokens]
      omega
  | pops item queue isOpen valid hmax hbyte contents =>
    have shorter := congrArg List.length contents
    rw [List.length_cons, moved, size] at shorter
    refine signal_inv .pop i ht (.pops item queue isOpen valid hmax hbyte contents) isOpen
      (fun _ => rfl) ?_ shorter.symm ?_ h
    · intro attentive
      obtain ⟨want, pushes, ends, -⟩ := comes.attends _ attentive
      cases want with
      | push item => exact ends
      | pop => cases pushes
    · simp only [tokens, Kind.other]
      omega

/-! ## Steps -/

/-- A wait that was cut short goes on only where nothing lies there for it that has nobody
else to look. -/
def Harmless (n : Nat) (s : Wakes) : Label → Prop
  | .retry t => ∀ w ∈ s.s.waiting t,
    s.s.q.isShut = false ∧ s.s.q.tokens w.want.kind ≤ attentive n (s.place w.want.kind)
  | .call .. | .back .. | .wake .. => True

instance (n : Nat) (s : Wakes) : DecidablePred (s.Harmless n)
  | .retry t => inferInstanceAs (Decidable (∀ w ∈ s.s.waiting t, _))
  | .call .. | .back .. | .wake .. => inferInstanceAs (Decidable True)

theorem call_inv (i : Inv n byte max s) {op : Op} {start now : Int}
    (h : step p n s (.call t op start now woke) = some s') : Inv n byte max s' := by
  simp only [step] at h
  obtain ⟨⟨ht, idle, fits⟩, h⟩ := Option.ite_none_right_eq_some.1 h
  obtain ⟨out, q', called, does⟩ := call_does i.base.valid op fits start now
  rw [MsgQueue.step, called, ok_bind] at h
  have outside (k : Kind) : s.place k t = .away := by rw [place, idle]; rfl
  refine leave_inv i ht does ⟨fun k => ?_, ?_, fun k attentive => ?_⟩ h
  · rw [outside]
    intro asleep
    cases asleep
  · rintro w rfl
    exact call_waits called
  · rw [outside] at attentive
    cases attentive

theorem back_inv (i : Inv n byte max s) {now : Int}
    (h : step p n s (.back t now woke) = some s') : Inv n byte max s' := by
  simp only [step] at h
  split at h
  · next w result waits woken =>
    have ht : t < n := i.bounded t (by rw [waits]; nofun)
    have fits : w.want.Fits s.s.q.queue.byte := i.base.slots ▸ i.base.waiting t w waits
    obtain ⟨out, q', resumed, does⟩ := resume_does i.base.valid w fits result now
    rw [MsgQueue.step, waits] at h
    dsimp only at h
    rw [resumed, ok_bind] at h
    refine leave_inv i ht does ⟨fun k asleep => ?_, ?_, fun k attentive => ?_⟩ h
    · obtain ⟨_, -, sleeps, -⟩ := placeOf_asleep asleep
      rw [woken] at sleeps
      cases sleeps
    · rintro w' rfl
      obtain ⟨rfl, none⟩ := resume_waits resumed
      exact none
    · obtain ⟨w', waits', woken', rfl⟩ := placeOf_attentive attentive
      obtain rfl : w = w' := Option.some.inj (waits.symm.trans waits')
      obtain rfl : result = .ok := Option.some.inj (woken.symm.trans woken')
      refine ⟨w.want, rfl, resume_ends resumed, ?_⟩
      rintro a rfl refused
      exact goOn_refuses (by simpa [resume] using resumed) refused
  · cases h

/-- A change to the woken threads alone. -/
theorem woken_inv (i : Inv n byte max s) {woken : Option Code}
    (served : ∀ k, Served n (Function.update (s.place k) t (placeOf k (s.s.waiting t) woken))
      (s.s.q.tokens k))
    (shut : s.s.q.isShut = true → ∀ k, placeOf k (s.s.waiting t) woken ≠ .asleep) :
    Inv n byte max { s with woken := Function.update s.woken t woken } := by
  constructor
  · exact i.base
  · exact i.bounded
  · intro k
    rw [place_woken]
    exact served k
  · intro h k u
    rw [place_woken, Function.update_apply]
    split
    · exact shut h k
    · exact i.shut h k u

theorem wake_inv (i : Inv n byte max s) {result : Code}
    (h : step p n s (.wake t result) = some s') : Inv n byte max s' := by
  simp only [step] at h
  split at h
  · next w waits sleeps =>
    cases h
    have ht : t < n := i.bounded t (by rw [waits]; nofun)
    have woken (k : Kind) : placeOf k (s.s.waiting t) (some result) ≠ .asleep := by
      intro asleep
      obtain ⟨_, -, ⟨⟩, -⟩ := placeOf_asleep asleep
    refine woken_inv i (fun k => ?_) fun _ => woken
    refine (i.served k).move ht fun _ => ⟨woken k, ?_⟩
    have before : s.place k t ≠ .attentive := by
      intro attentive
      obtain ⟨_, -, awake, -⟩ := placeOf_attentive attentive
      rw [sleeps] at awake
      cases awake
    rw [if_neg before]
    omega
  · cases h

/-- What the loop of `ct_cond_wait_for` does where it goes on. -/
theorem retry_spec (h : s.retry p t = some s') : ∃ w, s.s.waiting t = some w ∧
    (∀ k, s.place k t = .away) ∧ s' = { s with woken := Function.update s.woken t none } := by
  unfold retry at h
  split at h
  · next w waits timedOut =>
    split at h
    · cases h
    · cases h
      refine ⟨w, waits, fun k => ?_, rfl⟩
      rw [place, waits, timedOut]
      rfl
  · cases h

theorem retry_inv (i : Inv n byte max s) (harmless : s.Harmless n (.retry t))
    (h : s.retry p t = some s') : Inv n byte max s' := by
  obtain ⟨w, waits, away, rfl⟩ := retry_spec h
  have ht : t < n := i.bounded t (by rw [waits]; nofun)
  obtain ⟨isOpen, enough⟩ := harmless w waits
  refine woken_inv i (fun k => ?_) fun shut => ?_
  · have count := attentive_update ht (s.place k) (placeOf k (s.s.waiting t) none)
    rw [away] at count
    by_cases same : w.want.kind = k
    · subst same
      intro _
      simp only [waits, placeOf, if_true, reduceCtorEq, if_false] at count ⊢
      omega
    · refine (i.served k).move ht fun _ => ?_
      rw [away, waits, placeOf, if_neg same]
      exact ⟨nofun, le_rfl⟩
  · rw [isOpen] at shut
    cases shut

theorem harmless_of_good (i : Inv n byte max s) {l : Label} (h : step p n s l = some s')
    (good : Good n max s') : s.Harmless n l := by
  cases l with
  | retry t =>
    intro w₀ waits₀
    obtain ⟨w, waits, away, rfl⟩ := retry_spec h
    obtain rfl : w = w₀ := Option.some.inj (waits.symm.trans waits₀)
    have ht : t < n := i.bounded t (by rw [waits]; nofun)
    have asleep : place { s with woken := Function.update s.woken t none } w.want.kind t = .asleep := by
      rw [place_woken, Function.update_self, waits]
      simp [placeOf]
    constructor
    · by_contra shut
      exact good.shut (by simpa using shut) _ _ asleep
    · have enough := good.served _ ⟨t, asleep⟩
      have count := attentive_update ht (s.place w.want.kind) (placeOf w.want.kind (s.s.waiting t) none)
      rw [place_woken] at enough
      simp only [away, waits, placeOf, if_true, reduceCtorEq, if_false] at count enough
      omega
  | call | back | wake => trivial

theorem step_inv (i : Inv n byte max s) {l : Label} (harmless : s.Harmless n l)
    (h : step p n s l = some s') : Inv n byte max s' := by
  cases l with
  | call t op start now woke => exact call_inv i h
  | back t now woke => exact back_inv i h
  | wake t result => exact wake_inv i h
  | retry t => exact retry_inv i harmless h

/-! ## Runs -/

/-- **A token finds a woken thread.** Over every run of any number of threads, while a pop is
asleep each item in the queue has a woken pop on its way to it, while a push is asleep each
free slot has a woken push, and nobody is asleep on a closed queue: in exactly the runs in which
a wait that the platform cut short only goes on where this lets it. -/
theorem msgqueue_wakes (p : Cond.Platform) (n byte : Nat) {buffer : List UInt8} {max : Nat}
    {q : MsgQueue} (hinit : init buffer byte max = (.ok, some q))
    (hbuffer : buffer.length = max * byte) (ls : List Label) :
    Throughout (step p n) (Good n max) (start q) ls ↔
      EachStep (step p n) (Harmless n) (start q) ls := by
  unfold init at hinit
  split at hinit
  · cases hinit
  · rename_i sizes
    obtain rfl : (⟨Queue.init buffer byte max, false⟩ : MsgQueue) = q := by simpa using hinit
    have base : MsgQueue.Inv byte max (MsgQueue.start ⟨Queue.init buffer byte max, false⟩) := by
      constructor
      · exact Queue.init_valid (by omega) (by omega) hbuffer
      · rfl
      · rfl
      · simp [MsgQueue.start]
      · rfl
    have inv : Inv n byte max (start ⟨Queue.init buffer byte max, false⟩) := by
      refine ⟨base, fun t h => absurd rfl h, fun _ => served_of_awake fun _ _ asleep => ?_, ?_⟩
      · cases asleep
      · intro shut
        cases shut
    exact throughout_iff_eachStep (fun _ _ _ i harmless h => step_inv i harmless h)
      (fun _ i => i.good) (fun _ _ _ i h good => harmless_of_good i h good) inv ls

/-- Two pops sleep, one of them for at most three seconds and cut to one. It is on its way to
sleep again when an item comes, and the other one is woken for it. -/
theorem msgqueue_wakes_cut :
    Throughout (step .timedwait 3) (Good 3 2) (start ⟨Queue.init [0, 0] 1 2, false⟩)
      [.call 0 (.popFor 3000) 0 0 none, .call 1 .pop 0 0 none, .wake 0 .etimedout,
        .call 2 (.push [7]) 1000 1000 (some 1), .retry 0, .back 1 1001 none,
        .call 2 .close 1002 1002 none, .back 0 1003 none] :=
  (msgqueue_wakes .timedwait 3 1 rfl rfl _).2 (by decide)

end Wakes

end Coter.MsgQueue
