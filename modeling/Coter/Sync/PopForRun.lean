import Coter.Sync.CondRun
import Coter.Sync.PopFor

/-!
# Runs of the only consumer

* `step_inv`: what holds between the consumer and the queue;
* `not_lost`: no item is left behind if every signal finds the consumer in time;
* `notification_kept`: notifications and items over all runs.
-/

namespace Coter.PopFor

open Lib.Lts
open MsgQueue (Wait)
open Cond (Monitor Pc Platform int64Max)

/-- The wait has timed out. -/
def expired : Pc → Bool
  | .woken _ result => result = .etimedout
  | .outside | .testing _ | .sleeping | .blocked .. | .returned _ => false

/-- A signal for an item that came in time does not find the wait timed out. -/
def Signalled (s : State) : Label → Prop
  | .signal .. => s.inTime → expired (s.m.pc 0) = false
  | _ => True

instance (s : State) : DecidablePred (Signalled s)
  | .signal .. => inferInstanceAs (Decidable (_ → _))
  | .tick _ | .lock _ | .unlock _ | .enqueue .. | .close _ | .pop .. | .test _ | .fail _ | .expire
  | .wake _ | .acquire | .back _ => inferInstanceAs (Decidable True)

/-- The call is about to return something else than `ETIMEDOUT`, or to look at the queue. -/
def heard : Pc → Bool
  | .woken _ result | .returned result => result ≠ .etimedout
  | .outside | .testing _ | .sleeping | .blocked .. => false

/-- The thread has the mutex inside `ct_cond_wait_for`. -/
def holding : Pc → Bool
  | .testing _ | .returned _ => true
  | .outside | .sleeping | .blocked .. | .woken .. => false

/-- Thread 0 is the only one that waits, with its frame while it is inside the call. -/
structure Alone (s : State) : Prop where
  others : ∀ t, t ≠ 0 → s.m.pc t = .outside
  holds : holding (s.m.pc 0) → s.m.owner = some 0
  pending : ∀ t, s.pending = some t → s.m.owner = some t ∧ s.m.pc t = .outside

structure Inv (s : State) : Prop extends Alone s where
  frame : s.frame = none ↔ s.m.pc 0 = .outside
  inTime : s.inTime → s.frame ≠ none →
    s.q.queue.isEmpty = false ∧ (s.pending = none → heard (s.m.pc 0))
  byte : s.q.queue.byte ≠ 0
  lost : s.lost = false

variable {p : Platform} {n : Nat} {s t : State}

theorem move_eq {l : Cond.Label} (h : s.move p n l = some t) :
    ∃ m, Cond.Moves p n s.m l m ∧ t = { s with m } := by
  unfold State.move at h
  obtain ⟨m, hm, rfl⟩ := Option.map_eq_some_iff.1 h
  exact ⟨m, Cond.step_moves hm, rfl⟩

/-- Steps of thread 0, and steps that are not on the condition variable. -/
def Plain : Cond.Label → Prop
  | .tick _ | .lock _ | .unlock _ => True
  | .test t _ | .fail t _ | .expire t | .wake t _ | .acquire t => t = 0
  | .signal .. | .broadcast _ | .waitFor .. | .resume _ => False

/-- The thread 0 goes from one place inside the call to another. -/
theorem inv_setPc (i : Inv s) {m : Monitor} {pc : Pc} (hpc : m.pc = Function.update s.m.pc 0 pc)
    (hin : s.m.pc 0 ≠ .outside) (hout : pc ≠ .outside) (holds : holding pc → m.owner = some 0)
    (pending : ∀ t, s.pending = some t → m.owner = some t)
    (hheard : s.pending = none → heard (s.m.pc 0) → heard pc) : Inv { s with m } := by
  have self : m.pc 0 = pc := by rw [hpc, Function.update_self]
  have other (t : Nat) (ht : t ≠ 0) : m.pc t = s.m.pc t := by
    rw [hpc, Function.update_of_ne ht]
  refine ⟨⟨?_, ?_, ?_⟩, ?_, ?_, i.byte, i.lost⟩
  · intro t ht
    exact (other t ht).trans (i.others t ht)
  · intro hold
    exact holds (self ▸ hold)
  · intro t hp
    refine ⟨pending t hp, ?_⟩
    have ht : t ≠ 0 := by
      rintro rfl
      exact hin (i.pending 0 hp).2
    exact (other t ht).trans (i.others t ht)
  · have := i.frame
    change s.frame = none ↔ m.pc 0 = .outside
    rw [self]
    exact ⟨fun h => absurd (this.1 h) hin, fun h => absurd h hout⟩
  · intro hin hf
    obtain ⟨stored, told⟩ := i.inTime hin hf
    refine ⟨stored, ?_⟩
    intro hp
    change heard (m.pc 0)
    rw [self]
    exact hheard hp (told hp)

/-- A step that leaves all threads where they are. -/
theorem inv_same (i : Inv s) {m : Monitor} (hpc : m.pc = s.m.pc)
    (holds : holding (s.m.pc 0) → m.owner = some 0)
    (pending : ∀ t, s.pending = some t → m.owner = some t) : Inv { s with m } := by
  refine ⟨⟨?_, ?_, ?_⟩, ?_, ?_, i.byte, i.lost⟩
  · exact hpc ▸ i.others
  · exact hpc ▸ holds
  · intro t hp
    exact ⟨pending t hp, hpc ▸ (i.pending t hp).2⟩
  · exact hpc ▸ i.frame
  · exact hpc ▸ i.inTime

theorem holding_of_testing {d : Int} (h : s.m.pc 0 = .testing d) : holding (s.m.pc 0) := by
  rw [h]
  rfl

theorem plain_inv (i : Inv s) {l : Cond.Label} (hl : Plain l)
    (hp : ∀ u, l = .unlock u → s.pending ≠ some u) {m : Monitor} (h : Cond.Moves p n s.m l m) :
    Inv { s with m } := by
  cases h with
  | tick ms => exact inv_same i rfl i.holds (fun t hp => (i.pending t hp).1)
  | lock u hu free hpc =>
    refine inv_same i rfl ?_ ?_
    · intro hold
      rw [i.holds hold] at free
      cases free
    · intro t hp
      rw [(i.pending t hp).1] at free
      cases free
  | unlock u holds hpc =>
    refine inv_same i rfl ?_ ?_
    · intro hold
      have := i.holds hold
      rw [holds] at this
      obtain rfl := Option.some.inj this
      rw [hpc] at hold
      cases hold
    · intro t ht
      have := (i.pending t ht).1
      rw [holds] at this
      obtain rfl := Option.some.inj this
      exact absurd ht (hp u rfl)
  | ends u lag d hpc late =>
    obtain rfl := hl
    have holds := i.holds (holding_of_testing hpc)
    refine inv_setPc i rfl (by simp [hpc]) (by simp) (fun _ => holds)
      (fun t hp => (i.pending t hp).1) ?_
    intro _ told
    simp [hpc, heard] at told
  | fails u errno d hpc early =>
    obtain rfl := hl
    have holds := i.holds (holding_of_testing hpc)
    exact inv_setPc i rfl (by simp [hpc]) (by simp) (fun _ => holds)
      (fun t hp => (i.pending t hp).1) (by simp [heard])
  | blocks u lag d hpc early small =>
    obtain rfl := hl
    have holds := i.holds (holding_of_testing hpc)
    refine inv_setPc i rfl (by simp [hpc]) (by simp) (by simp [holding]) ?_ (by simp [hpc, heard])
    intro t hp
    obtain ⟨owns, hout⟩ := i.pending t hp
    rw [holds] at owns
    obtain rfl := Option.some.inj owns
    rw [hpc] at hout
    cases hout
  | expires u d expiry hpc late =>
    obtain rfl := hl
    exact inv_setPc i rfl (by simp [hpc]) (by simp) (by simp [holding])
      (fun t hp => (i.pending t hp).1) (by simp [hpc, heard])
  | wakes u result hpc hr =>
    obtain rfl := hl
    cases hpc' : s.m.pc 0 with
    | sleeping | blocked =>
      exact inv_setPc i rfl (by simp [hpc']) (by simp [Pc.wake]) (by simp [holding, Pc.wake])
        (fun t hp => (i.pending t hp).1) (by simp [hpc', heard])
    | outside | testing | woken | returned =>
      rw [hpc'] at hpc
      cases hpc
  | retries u d hpc free =>
    obtain rfl := hl
    refine inv_setPc i rfl (by simp [hpc]) (by simp) (fun _ => rfl) ?_ (by simp [hpc, heard])
    intro t hp
    rw [(i.pending t hp).1] at free
    cases free
  | leaves u d result hpc leaving free =>
    obtain rfl := hl
    refine inv_setPc i rfl (by simp [hpc]) (by simp) (fun _ => rfl) ?_ (by simp [hpc, heard])
    intro t hp
    rw [(i.pending t hp).1] at free
    cases free
  | signal | broadcast | sleeps | refuses | begins | resumes => cases hl

theorem notify_pc (m : Monitor) (holds : Bool) (chosen : Nat → Bool) (t : Nat) :
    (m.notify holds chosen).pc t = if chosen t then (m.pc t).wake .ok else m.pc t := rfl

/-- The wake-ups of a notification. -/
theorem inv_notify (i : Inv s) (holds : Bool) (chosen : Nat → Bool) {q : MsgQueue}
    {pending : Option Nat} (hq : q.queue = s.q.queue)
    (hp : ∀ t, pending = some t → s.pending = some t)
    (hheard : s.inTime → s.frame ≠ none → heard ((s.m.notify holds chosen).pc 0)) :
    Inv { s with m := s.m.notify holds chosen, q, pending } := by
  have still (t : Nat) (h : (s.m.pc t).waits = false) :
      (s.m.notify holds chosen).pc t = s.m.pc t := by
    rw [notify_pc, Cond.wake_of_not_waits h, ite_self]
  have outside (t : Nat) (h : s.m.pc t = .outside) : (s.m.notify holds chosen).pc t = .outside :=
    (still t (by rw [h]; rfl)).trans h
  refine ⟨⟨?_, ?_, ?_⟩, ?_, ?_, ?_, i.lost⟩
  · intro t ht
    exact outside t (i.others t ht)
  · intro hold
    apply i.holds
    cases hw : (s.m.pc 0).waits with
    | false => exact still 0 hw ▸ hold
    | true =>
      change holding (if chosen 0 then (s.m.pc 0).wake .ok else s.m.pc 0) at hold
      cases hpc : s.m.pc 0 with
      | sleeping | blocked =>
        rw [hpc] at hold
        split at hold <;> cases hold
      | outside | testing | woken | returned =>
        rw [hpc] at hw
        cases hw
  · intro t ht
    obtain ⟨owns, hout⟩ := i.pending t (hp t ht)
    exact ⟨owns, outside t hout⟩
  · refine i.frame.trans ⟨outside 0, ?_⟩
    intro h
    cases hw : (s.m.pc 0).waits with
    | false => exact (still 0 hw).symm.trans h
    | true =>
      change (if chosen 0 then (s.m.pc 0).wake .ok else s.m.pc 0) = _ at h
      cases hpc : s.m.pc 0 with
      | outside => rfl
      | sleeping | blocked =>
        rw [hpc] at h
        split at h <;> cases h
      | testing | woken | returned =>
        rw [hpc] at hw
        cases hw
  · intro hin hf
    refine ⟨?_, fun _ => hheard hin hf⟩
    change q.queue.isEmpty = false
    rw [hq]
    exact (i.inTime hin hf).1
  · change q.queue.byte ≠ 0
    rw [hq]
    exact i.byte

theorem signal_inv (i : Inv s) {u : Nat} {woke : Option Nat} (hp : s.pending = some u)
    (hs : s.inTime → expired (s.m.pc 0) = false)
    (h : { s with pending := none }.move p n (.signal u woke) = some t) : Inv t := by
  obtain ⟨m, moves, rfl⟩ := move_eq h
  obtain ⟨owns, hout⟩ := i.pending u hp
  cases moves with
  | signal _ _ hu _ may =>
    refine inv_notify i _ _ rfl (by simp) ?_
    intro hin hf
    have inside : s.m.pc 0 ≠ .outside := fun h => hf (i.frame.2 h)
    rw [notify_pc]
    cases hpc : s.m.pc 0 with
    | outside => exact absurd hpc inside
    | testing | returned =>
      have := i.holds (by rw [hpc]; rfl)
      rw [owns] at this
      obtain rfl := Option.some.inj this
      exact absurd hout inside
    | woken d result =>
      have := hs hin
      rw [hpc] at this
      simpa [Pc.wake, heard, expired] using this
    | sleeping | blocked =>
      have chosen : woke = some 0 := by
        cases woke with
        | none =>
          have idle : (!(s.m.pc 0).waits) = true := may 0 (by omega)
          rw [hpc] at idle
          cases idle
        | some w =>
          by_contra hw
          have waits : (s.m.pc w).waits = true := may
          rw [i.others w (by simpa using hw)] at waits
          cases waits
      simp [chosen, Pc.wake, heard]

theorem close_inv (i : Inv s) {u : Nat} (hp : s.pending = none)
    (h : { s with q := { s.q with isShut := true } }.move p n (.broadcast u) = some t) : Inv t := by
  obtain ⟨m, moves, rfl⟩ := move_eq h
  cases moves with
  | broadcast =>
    refine inv_notify i _ _ rfl (fun _ h => h) ?_
    intro hin hf
    have told := (i.inTime hin hf).2 hp
    cases hpc : s.m.pc 0 with
    | woken | returned =>
      rw [hpc] at told
      simpa [notify_pc, hpc, Pc.wake] using told
    | outside | testing | sleeping | blocked =>
      rw [hpc] at told
      cases told

/-! ## The queue -/

theorem enqueue_size {q q' : Queue} {item : MsgQueue.Item} {b : Bool} (byte : q.byte ≠ 0)
    (room : q.isFull = false) (h : q.enqueue item = .ok (b, q')) :
    q'.size = q.size + 1 ∧ q'.byte = q.byte := by
  unfold Queue.enqueue at h
  rw [if_neg byte, room, if_neg Bool.false_ne_true] at h
  cases hload : load item 0 q.byte with
  | error e => simp [hload] at h
  | ok bytes =>
    rw [hload, ok_bind] at h
    cases hstore : store q.all (q.tail * q.byte) bytes with
    | error e => simp [hstore] at h
    | ok all =>
      rw [hstore, ok_bind] at h
      obtain ⟨_, rfl⟩ := Prod.mk.inj (Except.ok.inj h)
      exact ⟨rfl, rfl⟩

theorem dequeue_byte {q q' : Queue} {item : Option MsgQueue.Item} (h : q.dequeue = .ok (item, q')) :
    q'.byte = q.byte := by
  unfold Queue.dequeue at h
  split at h
  · obtain ⟨_, rfl⟩ := Prod.mk.inj (Except.ok.inj h)
    rfl
  · split at h
    · obtain ⟨_, rfl⟩ := Prod.mk.inj (Except.ok.inj h)
      rfl
    · cases hload : load q.all (q.head * q.byte) q.byte with
      | error e => simp [hload] at h
      | ok bytes =>
        rw [hload, ok_bind] at h
        obtain ⟨_, rfl⟩ := Prod.mk.inj (Except.ok.inj h)
        rfl

theorem finishPop_byte {q q' : MsgQueue} {code : Code} {out : MsgQueue.Outcome}
    (h : q.finishPop code = .ok (out, q')) : q'.queue.byte = q.queue.byte := by
  unfold MsgQueue.finishPop at h
  split at h
  · cases hd : q.queue.dequeue with
    | error e => simp [hd] at h
    | ok r =>
      rw [hd, ok_bind] at h
      obtain ⟨_, rfl⟩ := Prod.mk.inj (Except.ok.inj h)
      exact dequeue_byte hd
  · obtain ⟨_, rfl⟩ := Prod.mk.inj (Except.ok.inj h)
    rfl

theorem enqueue_inv (i : Inv s) {u : Nat} {item : MsgQueue.Item} {out : MsgQueue.Outcome} {q : MsgQueue}
    (owns : s.m.owner = some u) (hout : s.m.pc u = .outside) (room : s.q.queue.isFull = false)
    (h : s.q.finishPush item .ok = .ok (out, q)) (inTime : Bool) :
    Inv { s with q, pending := some u, inTime } := by
  unfold MsgQueue.finishPush at h
  rw [if_pos rfl] at h
  cases he : s.q.queue.enqueue item with
  | error e => simp [he] at h
  | ok r =>
    rw [he, ok_bind] at h
    obtain ⟨_, rfl⟩ := Prod.mk.inj (Except.ok.inj h)
    obtain ⟨size, byte⟩ := enqueue_size i.byte room he
    refine ⟨⟨i.others, i.holds, ?_⟩, i.frame, ?_, ?_, i.lost⟩
    · intro t ht
      obtain rfl := Option.some.inj ht
      exact ⟨owns, hout⟩
    · intro _ _
      refine ⟨?_, fun h => by cases h⟩
      change (r.2.size == 0) = false
      rw [size]
      rfl
    · change r.2.byte ≠ 0
      rw [byte]
      exact i.byte

/-- The consumer has the mutex outside `ct_cond_wait_for`, and is in its wait loop. -/
structure Looping (s : State) : Prop extends Alone s where
  outside : s.m.pc 0 = .outside
  owner : s.m.owner = some 0
  idle : s.pending = none
  byte : s.q.queue.byte ≠ 0
  lost : s.lost = false

theorem leave_inv (i : Looping s) {code : Code}
    (hcode : code = .etimedout → s.inTime → s.q.queue.isEmpty)
    (h : s.leave p n code = some t) : Inv t := by
  unfold State.leave at h
  split at h
  · rename_i out q hq
    obtain ⟨m, moves, rfl⟩ := move_eq h
    cases moves with
    | unlock =>
      refine ⟨⟨i.others, ?_, ?_⟩, ?_, ?_, ?_, ?_⟩
      · intro hold
        have : holding (s.m.pc 0) := hold
        rw [i.outside] at this
        cases this
      · intro t ht
        have : s.pending = some t := ht
        rw [i.idle] at this
        cases this
      · exact ⟨fun _ => i.outside, fun _ => rfl⟩
      · intro hin
        cases hin
      · change q.queue.byte ≠ 0
        rw [finishPop_byte hq]
        exact i.byte
      · simp only [i.lost, Bool.false_or, Bool.and_eq_false_iff, decide_eq_false_iff_not,
          Bool.not_eq_false']
        by_cases hc : code = .etimedout
        · cases hin : s.inTime with
          | false => exact .inl (.inr rfl)
          | true => exact .inr (hcode hc hin)
        · exact .inl (.inl hc)
  · cases h

/-- The wait loop looks at the queue before it looks at the time. -/
theorem turn_stored {q : MsgQueue} (h : q.queue.isEmpty = false) (timeoutMs deadline now : Int) :
    q.waitNotEmpty timeoutMs deadline now = .returns (if q.isShut then .epipe else .ok) := by
  unfold MsgQueue.waitNotEmpty MsgQueue.waitWhile
  rw [h, if_neg Bool.false_ne_true]

theorem enter_inv (i : Looping s) (late : s.inTime = false) {m : Monitor} {pc : Pc} (w : Wait)
    (hpc : m.pc = Function.update s.m.pc 0 pc) (hin : pc ≠ .outside)
    (holds : holding pc → m.owner = some 0) : Inv { s with m, frame := some w } := by
  have self : m.pc 0 = pc := by rw [hpc, Function.update_self]
  refine ⟨⟨?_, ?_, ?_⟩, ?_, ?_, i.byte, i.lost⟩
  · intro t ht
    change m.pc t = .outside
    rw [hpc, Function.update_of_ne ht]
    exact i.others t ht
  · intro hold
    exact holds (self ▸ hold)
  · intro t ht
    have : s.pending = some t := ht
    rw [i.idle] at this
    cases this
  · exact ⟨(by simp), fun h => absurd (self.symm.trans h) hin⟩
  · intro hinTime
    have : s.inTime = true := hinTime
    rw [late] at this
    cases this

theorem turn_inv (i : Looping s) {w : Wait} {lag : Nat}
    (hin : s.inTime → s.q.queue.isEmpty = false) (h : s.turn p n w lag = some t) : Inv t := by
  unfold State.turn at h
  split at h
  · rename_i code hturn
    refine leave_inv i ?_ h
    intro hcode hinTime
    have := turn_stored (hin hinTime) w.timeoutMs w.deadline s.m.clock
    rw [hturn] at this
    subst hcode
    split at this <;> cases this
  · rename_i waitMs hturn
    have late : s.inTime = false := by
      by_contra hinTime
      rw [turn_stored (hin (by simpa using hinTime))] at hturn
      cases hturn
    obtain ⟨u, hu, h⟩ := Option.bind_eq_some_iff.1 h
    obtain ⟨v, hv, h⟩ := Option.bind_eq_some_iff.1 h
    obtain rfl := Option.some.inj h
    obtain ⟨m, moves, rfl⟩ := move_eq hu
    obtain ⟨m', moves', rfl⟩ := move_eq hv
    cases moves with
    | tick =>
      cases moves' with
      | sleeps => exact enter_inv i late w rfl (by simp) (by simp [holding])
      | refuses => exact enter_inv i late w rfl (by simp) (fun _ => i.owner)
      | begins => exact enter_inv i late w rfl (by simp) (fun _ => i.owner)

theorem pop_inv (i : Inv s) {timeoutMs : Int} {late lag : Nat}
    (h : step p n s (.pop timeoutMs late lag) = some t) : Inv t := by
  simp only [step] at h
  obtain ⟨u, hu, h⟩ := Option.bind_eq_some_iff.1 h
  obtain ⟨m, moves, rfl⟩ := move_eq hu
  cases moves with
  | lock _ _ free hpc =>
    have idle : s.pending = none := by
      cases hp : s.pending with
      | none => rfl
      | some t =>
        rw [(i.pending t hp).1] at free
        cases free
    have looping (c : Int) : Looping
        { s with
          m := { s.m with clock := c, owner := some 0 }
          inTime := !s.q.queue.isEmpty } := by
      refine ⟨⟨i.others, fun _ => rfl, ?_⟩, hpc, rfl, idle, i.byte, i.lost⟩
      intro t ht
      have : s.pending = some t := ht
      rw [idle] at this
      cases this
    dsimp only at h
    split at h
    · exact leave_inv (looping s.m.clock) (by simp) h
    · obtain ⟨v, hv, h⟩ := Option.bind_eq_some_iff.1 h
      obtain ⟨m, moves, rfl⟩ := move_eq hv
      cases moves with
      | tick => exact turn_inv (looping _) (by simp) h

theorem back_inv (i : Inv s) {lag : Nat} (h : step p n s (.back lag) = some t) : Inv t := by
  simp only [step] at h
  split at h
  · rename_i w result hw hpc
    obtain ⟨u, hu, h⟩ := Option.bind_eq_some_iff.1 h
    obtain ⟨m, moves, rfl⟩ := move_eq hu
    cases moves with
    | resumes =>
      have owner := i.holds (by rw [hpc]; rfl)
      have idle : s.pending = none := by
        cases hp : s.pending with
        | none => rfl
        | some t =>
          obtain ⟨owns, hout⟩ := i.pending t hp
          rw [owner] at owns
          obtain rfl := Option.some.inj owns
          rw [hpc] at hout
          cases hout
      have told (hin : s.inTime) : s.q.queue.isEmpty = false ∧ result ≠ .etimedout := by
        obtain ⟨stored, hheard⟩ := i.inTime hin (by simp [hw])
        refine ⟨stored, ?_⟩
        simpa [hpc, heard] using hheard idle
      have looping : Looping { s with m := s.m.setPc 0 .outside } := by
        refine ⟨⟨?_, fun _ => owner, ?_⟩, ?_, owner, idle, i.byte, i.lost⟩
        · intro t ht
          exact (Function.update_of_ne ht ..).trans (i.others t ht)
        · intro t ht
          have : s.pending = some t := ht
          rw [idle] at this
          cases this
        · simp [Monitor.setPc]
      split at h
      · refine leave_inv looping ?_ h
        intro hcode hin
        exact absurd hcode (told hin).2
      · exact turn_inv looping (fun hin => (told hin).1) h
  · cases h

theorem step_inv (i : Inv s) {l : Label} (hl : Signalled s l) (h : step p n s l = some t) :
    Inv t := by
  have plain {l : Cond.Label} (h : s.move p n l = some t) (hl : Plain l)
      (hp : ∀ u, l = .unlock u → s.pending ≠ some u) : Inv t := by
    obtain ⟨m, moves, rfl⟩ := move_eq h
    exact plain_inv i hl hp moves
  cases l with
  | tick | lock => exact plain h trivial (by simp)
  | test | fail | expire | wake | acquire => exact plain h rfl (by simp)
  | unlock u =>
    simp only [step] at h
    split at h
    · cases h
    · rename_i hp
      refine plain h trivial ?_
      rintro v ⟨⟩
      exact hp
  | enqueue u item =>
    simp only [step] at h
    split at h
    · rename_i ready
      obtain ⟨owns, hout, hp, isOpen, room⟩ := ready
      split at h
      · rename_i out q hq
        obtain rfl := Option.some.inj h
        exact enqueue_inv i owns hout (by simpa using room) hq _
      · cases h
    · cases h
  | signal u woke =>
    simp only [step] at h
    split at h
    · rename_i hp
      exact signal_inv i hp hl h
    · cases h
  | close u =>
    simp only [step] at h
    split at h
    · rename_i ready
      split at h
      · obtain rfl := Option.some.inj h
        exact i
      · exact close_inv i ready.2.2 h
    · cases h
  | pop => exact pop_inv i h
  | back => exact back_inv i h

theorem start_inv {q : MsgQueue} (byte : q.queue.byte ≠ 0) : Inv (start q) := by
  refine ⟨⟨fun _ _ => rfl, ?_, ?_⟩, ⟨fun _ => rfl, fun _ => rfl⟩, ?_, byte, rfl⟩
  · intro h
    cases h
  · intro t h
    cases h
  · intro h
    cases h

/-- In a run in which no signal for an item that came in time finds the consumer's wait
timed out, no call returns `ETIMEDOUT` with such an item in the queue. -/
theorem not_lost {q : MsgQueue} (byte : q.queue.byte ≠ 0) {ls : List Label}
    (h : EachStep (step p n) Signalled (start q) ls) :
    Throughout (step p n) (fun s => s.lost = false) (start q) ls :=
  throughout_of_eachStep (fun _ _ _ i hl hstep => step_inv i hl hstep) (fun _ i => i.lost)
    (start_inv byte) h

/-- A slice of a second is over when the item comes: the signal reaches nobody, the
consumer waits again, and after five seconds it leaves the item behind. -/
theorem signal_between_slices :
    (run (step .timedwait 2) (start ⟨Queue.init [0] 1 1, false⟩)
      [.pop 5000 0 0, .test 0, .tick 1000, .expire, .lock 1, .enqueue 1 [7], .signal 1 none,
        .unlock 1, .acquire, .test 0, .tick 4000, .expire, .acquire, .test 0, .back 0]).map
      (fun s => (s.m.again 0, s.frame, s.lost, s.q.queue.size)) = some (true, none, true, 1) := by
  decide

/-- **Notifications are kept unless a wait is cut.** A call sleeps over a notification
in exactly the runs in which one goes past it, to an expired slice or to somebody else,
with time left at its next test. No run has one exactly if the timeouts are not cut.
A consumer leaves no item behind if the signals find its wait not yet timed out. -/
theorem notification_kept (p : Platform) {n : Nat} (hn : 1 < n) :
    (∀ ls, Throughout (Cond.step p n) Cond.Kept Cond.init ls ↔
      EachStep (Cond.step p n) Cond.Undisturbed Cond.init ls) ∧
    (∀ allowed : Int → Prop,
      (∀ ls, (∀ t timeoutMs, .waitFor t timeoutMs ∈ ls → allowed timeoutMs) →
        Throughout (Cond.step p n) Cond.Kept Cond.init ls) ↔
      ∀ timeoutMs ≤ int64Max, allowed timeoutMs → Cond.Uncut p timeoutMs) ∧
    ∀ buffer byte max q, MsgQueue.init buffer byte max = (.ok, some q) → ∀ ls,
      EachStep (step p n) Signalled (start q) ls →
        Throughout (step p n) (fun s => s.lost = false) (start q) ls := by
  refine ⟨Cond.kept_iff, Cond.kept_iff_uncut hn, ?_⟩
  intro buffer byte max q hinit ls h
  unfold MsgQueue.init at hinit
  split at hinit
  · cases hinit
  · rename_i sizes
    obtain rfl : (⟨Queue.init buffer byte max, false⟩ : MsgQueue) = q := by simpa using hinit
    exact not_lost (fun zero => sizes (.inl zero)) h

/-- A signal in the second slice ends the wait, in time for the item. -/
theorem notification_kept_slices :
    Throughout (Cond.step .timedwait 2) Cond.Kept Cond.init
      [.lock 0, .waitFor 0 5000, .test 0 0, .tick 1000, .expire 0, .acquire 0, .test 0 0, .lock 1,
        .signal 1 (some 0), .unlock 1, .acquire 0, .resume 0] ∧
    Throughout (step .timedwait 2) (fun s => s.lost = false) (start ⟨Queue.init [0] 1 1, false⟩)
      [.pop 5000 0 0, .test 0, .tick 1000, .expire, .acquire, .test 0, .tick 10, .lock 1,
        .enqueue 1 [7], .signal 1 (some 0), .unlock 1, .acquire, .back 0] := by
  obtain ⟨kept, -, inTime⟩ := notification_kept .timedwait (n := 2) (by decide)
  constructor
  · exact (kept _).2 (by decide)
  · exact inTime [0] 1 1 _ rfl _ (by decide)

end Coter.PopFor
