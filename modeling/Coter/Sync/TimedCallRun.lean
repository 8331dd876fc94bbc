import Coter.Sync.CondRun
import Coter.Sync.TimedCall

/-!
# Runs of calls with a timeout

* `moves_inTime`: a condition wait times out only behind the deadline that it stands for;
* `reported_iff`: over all runs of a loop, timeouts are reported in time and no deadline
  overflows exactly if every deadline is a time;
* `timeouts_in_time`: this for the message queue and the wait group.
-/

namespace Coter.TimedCall

open Lib.Lts
open MsgQueue (Turn)
open Cond (Platform Monitor Pc int64Max Moves)

/-! ## Condition waits -/

/-- The thread will not report a timeout before the deadline. -/
def InTime (deadline clock : Int) : Pc → Prop
  | .testing d | .blocked d _ | .woken (some d) _ => deadline ≤ d
  | .woken none result => result ≠ .etimedout
  | .returned result => result = .etimedout → deadline ≤ clock
  | .outside | .sleeping => True

theorem InTime.later {deadline c c' : Int} {pc : Pc} (h : InTime deadline c pc) (hc : c ≤ c') :
    InTime deadline c' pc := by
  cases pc with
  | returned result => exact fun hr => Int.le_trans (h hr) hc
  | woken d result => cases d <;> exact h
  | outside | testing | sleeping | blocked => exact h

theorem InTime.wake {deadline c : Int} {pc : Pc} {result : Code} (h : InTime deadline c pc)
    (hr : result ≠ .etimedout) : InTime deadline c (pc.wake result) := by
  cases pc with
  | sleeping => exact hr
  | woken d result' => cases d <;> exact h
  | outside | testing | blocked | returned => exact h

theorem InTime.setPc {deadline c : Int} {m : Monitor} {t v : Nat} {pc : Pc}
    (h : InTime deadline c (m.pc t)) (hv : t = v → InTime deadline c pc) :
    InTime deadline c ((m.setPc v pc).pc t) := by
  by_cases same : t = v
  · subst same
    simpa [Monitor.setPc] using hv rfl
  · simpa [Monitor.setPc, same] using h

/-- A wait that has begun gives up at a time no earlier than the deadline. -/
theorem inTime_begins {dl clock timeoutMs : Int} (range : dl ≤ int64Max)
    (h : dl ≤ clock + timeoutMs) : dl ≤ Cond.deadline timeoutMs clock := by
  unfold Cond.deadline
  split
  · exact range
  · exact h

section Moves

variable {p : Platform} {n : Nat} {m m' : Monitor} {l : Cond.Label}

theorem moves_clock (h : Moves p n m l m') :
    m.clock ≤ m'.clock ∧ (m.clock ≤ int64Max → m'.clock ≤ int64Max) := by
  cases h with
  | tick ms small =>
    refine ⟨?_, fun _ => small⟩
    show m.clock ≤ m.clock + ms
    omega
  | blocks t lag d hpc early small =>
    refine ⟨?_, fun _ => small⟩
    show m.clock ≤ m.clock + lag
    omega
  | lock | unlock | signal | broadcast | sleeps | refuses | begins | ends | fails | expires | wakes
  | retries | leaves | resumes => exact ⟨Int.le_refl _, id⟩

theorem moves_inTime {dl : Int} {t : Nat} (h : Moves p n m l m')
    (hi : InTime dl m.clock (m.pc t))
    (waits : ∀ ms, l = .waitFor t ms → 0 < ms ∧ dl ≤ int64Max ∧ dl ≤ m.clock + ms) :
    InTime dl m'.clock (m'.pc t) := by
  have later := hi.later (moves_clock h).1
  cases h with
  | tick | lock | unlock => exact later
  | signal u woke | broadcast u =>
    simp only [Monitor.notify]
    split
    · exact hi.wake (by decide)
    · exact hi
  | sleeps u timeoutMs holds hpc neg =>
    refine InTime.setPc (m := { m.enter u with owner := none }) hi (fun _ => trivial)
  | refuses u holds hpc =>
    refine InTime.setPc (m := m.enter u) hi ?_
    rintro rfl
    exact absurd (waits 0 rfl).1 (by decide)
  | begins u timeoutMs holds hpc pos small =>
    refine InTime.setPc (m := m.enter u) hi ?_
    rintro rfl
    obtain ⟨-, range, within⟩ := waits timeoutMs rfl
    exact inTime_begins range within
  | ends u lag d hpc late =>
    refine hi.setPc ?_
    rintro rfl _
    rw [hpc] at hi
    exact Int.le_trans hi late
  | blocks u lag d hpc early small =>
    refine InTime.setPc (m := { m with clock := m.clock + lag, owner := none }) later ?_
    rintro rfl
    rw [hpc] at hi
    exact hi
  | fails u errno d hpc early =>
    refine hi.setPc ?_
    intro _ timedOut
    cases timedOut
  | expires u d expiry hpc late =>
    refine hi.setPc ?_
    rintro rfl
    rw [hpc] at hi
    exact hi
  | wakes u result hpc hr =>
    refine hi.setPc ?_
    rintro rfl
    exact hi.wake hr
  | retries u d hpc free =>
    refine InTime.setPc (m := { m with owner := some u }) hi ?_
    rintro rfl
    rw [hpc] at hi
    exact hi
  | leaves u d result hpc leaving free =>
    refine InTime.setPc (m := { m with owner := some u }) hi ?_
    rintro rfl timedOut
    subst timedOut
    rw [hpc] at hi leaving
    cases d with
    | none => exact absurd rfl hi
    | some d => cases leaving
  | resumes u result hpc => exact hi.setPc (fun _ => trivial)

end Moves

/-! ## Calls -/

/-- Timeouts are reported when the clock has reached the time of the call plus the
timeout, and no deadline has overflowed. -/
def Good {D W : Type} (s : State D W) : Prop :=
  s.overflowed = false ∧ ∀ r ∈ s.reports, r.start + r.timeoutMs ≤ r.reportedAt

instance {D W : Type} : DecidablePred (Good (D := D) (W := W)) :=
  fun _ => inferInstanceAs (Decidable (_ ∧ _))

/-- The deadline of a call that begins is a time. -/
def Representable {D W O : Type} (s : State D W) : Label W O → Prop
  | .begin _ _ timeoutMs => s.m.clock + timeoutMs ≤ int64Max
  | .monitor _ | .other .. | .turn .. => True

instance {D W O : Type} (s : State D W) : DecidablePred (Representable (O := O) s)
  | .begin .. => inferInstanceAs (Decidable (_ ≤ _))
  | .monitor _ | .other .. | .turn .. => inferInstanceAs (Decidable True)

variable {D W O : Type}

/-- What is known of a call inside its loop. -/
structure Frame.Ok (f : Frame W) (clock : Int) (pc : Pc) : Prop where
  started : f.start ≤ clock
  sum : 0 < f.timeoutMs → f.deadline = f.start + f.timeoutMs
  range : 0 < f.timeoutMs → f.deadline ≤ int64Max
  inTime : 0 < f.timeoutMs → InTime f.deadline clock pc

structure Inv (s : State D W) : Prop where
  clock : 0 ≤ s.m.clock ∧ s.m.clock ≤ int64Max
  good : Good s
  calls : ∀ t f, s.frame t = some f → f.Ok s.m.clock (s.m.pc t)

section Steps

variable {L : Loop D W O} {p : Platform} {n : Nat} {s s' : State D W} {t : Nat} {f : Frame W}

/-- Steps on the monitor, if a wait that begins lasts at least up to its deadline. -/
theorem move_inv (i : Inv s) {l : Cond.Label} (h : s.move p n l = some s')
    (waits : ∀ t ms f, l = .waitFor t ms → s.frame t = some f → 0 < f.timeoutMs →
      0 < ms ∧ f.deadline ≤ s.m.clock + ms) : Inv s' := by
  unfold State.move at h
  obtain ⟨m, hm, rfl⟩ := Option.map_eq_some_iff.1 h
  have moves := Cond.step_moves hm
  obtain ⟨later, range⟩ := moves_clock moves
  refine ⟨⟨Int.le_trans i.clock.1 later, range i.clock.2⟩, i.good, fun t f hf => ?_⟩
  have ok := i.calls t f hf
  refine ⟨Int.le_trans ok.started later, ok.sum, ok.range, fun pos => ?_⟩
  refine moves_inTime moves (ok.inTime pos) (fun ms hl => ?_)
  obtain ⟨some, within⟩ := waits t ms f hl hf pos
  exact ⟨some, ok.range pos, within⟩

theorem move_data {l : Cond.Label} (h : s.move p n l = some s') :
    s'.frame = s.frame ∧ s'.data = s.data ∧ s.m.clock ≤ s'.m.clock := by
  unfold State.move at h
  obtain ⟨m, hm, rfl⟩ := Option.map_eq_some_iff.1 h
  exact ⟨rfl, rfl, (moves_clock (Cond.step_moves hm)).1⟩

/-- The call that returns `ETIMEDOUT` has reached its deadline. -/
theorem leave_inv (i : Inv s) {code : Code} (hf : s.frame t = some f)
    (late : code = .etimedout → 0 < f.timeoutMs → f.deadline ≤ s.m.clock) :
    Inv (s.leave t f code) := by
  have ok := i.calls t f hf
  have others (u : Nat) (g : Frame W) (hg : Function.update s.frame t none u = some g) :
      g.Ok s.m.clock (s.m.pc u) := by
    by_cases same : u = t
    · simp [same] at hg
    · exact i.calls u g (by simpa [same] using hg)
  unfold State.leave
  split
  · rename_i timedOut
    refine ⟨i.clock, ⟨i.good.1, fun r hr => ?_⟩, others⟩
    cases List.mem_cons.1 hr with
    | inl new =>
      subst new
      show f.start + f.timeoutMs ≤ s.m.clock
      by_cases pos : 0 < f.timeoutMs
      · rw [← ok.sum pos]
        exact late timedOut pos
      · have := ok.started
        omega
    | inr old => exact i.good.2 r old
  · exact ⟨i.clock, i.good, others⟩

theorem go_inv (i : Inv s) {result : Code} {lag : Nat} (hf : s.frame t = some f)
    (late : result = .etimedout → 0 < f.timeoutMs → f.deadline ≤ s.m.clock)
    (h : s.go L p n t f result lag = some s') : Inv s' := by
  have changed (data : D) : Inv { s with data } := ⟨i.clock, i.good, i.calls⟩
  unfold State.go at h
  split at h
  · cases h
  · rename_i code data hturn
    refine move_inv (leave_inv (changed data) hf ?_) h (fun _ _ _ hl => by cases hl)
    rintro rfl pos
    cases L.gives_up pos hturn with
    | inl timedOut => exact late timedOut pos
    | inr reached => exact reached
  · rename_i ms data hturn
    obtain ⟨s₁, hticks, hwaits⟩ := Option.bind_eq_some_iff.1 h
    obtain ⟨hframe, -, later⟩ := move_data hticks
    have i₁ : Inv s₁ := move_inv (changed data) hticks (fun _ _ _ hl => by cases hl)
    refine move_inv i₁ hwaits (fun u ms' g hl hg pos => ?_)
    cases hl
    rw [hframe] at hg
    obtain rfl : f = g := Option.some.inj (hf.symm.trans hg)
    obtain ⟨some, within⟩ := L.waits pos hturn
    refine ⟨some, Int.le_trans within ?_⟩
    have : s.m.clock ≤ s₁.m.clock := later
    omega

theorem i64_lt (n : Int) : i64 n ≤ int64Max := by
  unfold i64 int64Max
  rw [Int.bmod_def]
  omega

theorem begin_inv (i : Inv s) {want : W} {timeoutMs : Int}
    (small : s.m.clock + timeoutMs ≤ int64Max) (h : s.begin L n t want timeoutMs = some s') :
    Inv s' := by
  unfold State.begin at h
  split at h
  · rename_i enabled
    obtain ⟨-, -, hpc, -⟩ := enabled
    cases h
    have sum (nonneg : 0 ≤ timeoutMs) : i64 (s.m.clock + timeoutMs) = s.m.clock + timeoutMs := by
      have := i.clock.1
      unfold int64Max at small
      exact i64_of_range (by omega) (by omega)
    refine ⟨i.clock, ⟨?_, i.good.2⟩, fun u g hg => ?_⟩
    · have fits : ¬ (L.adds timeoutMs = true ∧
          i64 (s.m.clock + timeoutMs) ≠ s.m.clock + timeoutMs) := by
        rintro ⟨adds, off⟩
        exact off (sum (L.adds_nonneg adds))
      simp only [Bool.or_eq_false_iff, decide_eq_false_iff_not]
      exact ⟨i.good.1, fits⟩
    · by_cases same : u = t
      · subst same
        obtain rfl : _ = g := Option.some.inj (by simpa [State.setFrame] using hg)
        refine ⟨Int.le_refl _, fun pos => ?_, fun pos => ?_, fun pos => ?_⟩
        · exact (L.deadline_eq pos).trans (sum (Int.le_of_lt pos))
        · show L.deadline timeoutMs s.m.clock ≤ int64Max
          rw [L.deadline_eq pos]
          exact i64_lt _
        · show InTime _ _ (s.m.pc u)
          rw [hpc]
          trivial
      · exact i.calls u g (by simpa [State.setFrame, same] using hg)
  · cases h

theorem step_inv {l : Label W O} (i : Inv s) (hc : Representable s l)
    (h : step L p n s l = some s') : Inv s' := by
  cases l with
  | monitor l =>
    simp only [step, Option.ite_none_right_eq_some] at h
    obtain ⟨passes, h⟩ := h
    refine move_inv i h (fun u ms g hl => ?_)
    subst hl
    cases passes
  | other u op =>
    simp only [step, Option.ite_none_right_eq_some] at h
    obtain ⟨data, -, rfl⟩ := Option.map_eq_some_iff.1 h.2
    exact ⟨i.clock, i.good, i.calls⟩
  | begin u want timeoutMs => exact begin_inv i hc h
  | turn u lag =>
    simp only [step] at h
    split at h
    · rename_i f hf hpc
      simp only [Option.ite_none_right_eq_some] at h
      have fresh : Code.ok = .etimedout → 0 < f.timeoutMs → f.deadline ≤ s.m.clock := nofun
      exact go_inv i hf fresh h.2
    · rename_i f result hf hpc
      obtain ⟨s₁, hresume, hgo⟩ := Option.bind_eq_some_iff.1 h
      obtain ⟨hframe, -, later⟩ := move_data hresume
      have i₁ : Inv s₁ := move_inv i hresume (fun _ _ _ hl => by cases hl)
      refine go_inv i₁ (hframe ▸ hf) (fun timedOut pos => ?_) hgo
      have inTime := (i.calls u f hf).inTime pos
      rw [hpc] at inTime
      exact Int.le_trans (inTime timedOut) later
    · cases h

/-- The step after which a deadline has overflowed. -/
theorem representable_of_good {l : Label W O} (i : Inv s) (h : step L p n s l = some s')
    (good : Good s') : Representable s l := by
  cases l with
  | begin u want timeoutMs =>
    simp only [step, State.begin] at h
    split at h
    · cases h
      show s.m.clock + timeoutMs ≤ int64Max
      by_cases pos : 0 < timeoutMs
      · obtain ⟨-, fits⟩ := by
          simpa only [Bool.or_eq_false_iff, decide_eq_false_iff_not] using good.1
        have sum : i64 (s.m.clock + timeoutMs) = s.m.clock + timeoutMs := by
          by_contra off
          exact fits ⟨L.adds_pos pos, off⟩
        rw [← sum]
        exact i64_lt _
      · have := i.clock.2
        omega
    · cases h
  | monitor | other | turn => trivial

end Steps

theorem start_inv (data : D) (clock : Fin (2 ^ 63)) : Inv (start data clock : State D W) := by
  refine ⟨⟨Int.natCast_nonneg _, ?_⟩, ⟨rfl, nofun⟩, nofun⟩
  have := clock.isLt
  show (clock.val : Int) ≤ int64Max
  unfold int64Max
  omega

/-- Timeouts are reported in time, and no deadline overflows, in exactly the runs in
which the deadlines of all calls are times. -/
theorem reported_iff (L : Loop D W O) (p : Platform) (n : Nat) (data : D) (clock : Fin (2 ^ 63))
    (ls : List (Label W O)) :
    Throughout (step L p n) Good (start data clock) ls ↔
      EachStep (step L p n) Representable (start data clock) ls :=
  throughout_iff_eachStep (fun _ _ _ i hc h => step_inv i hc h) (fun _ i => i.good)
    (fun _ _ _ i h good => representable_of_good i h good) (start_inv data clock) ls

/-- **Timeouts of the message queue and the wait group.** From any time on and over
every run, `ct_msgqueue_push_for`, `ct_msgqueue_pop_for` and `ct_waitgroup_wait_for`
report timeouts in time and compute deadlines without overflow exactly if the time of
each call plus its timeout is a time. -/
theorem timeouts_in_time (p : Platform) (n : Nat) (clock : Fin (2 ^ 63)) :
    (∀ (q : MsgQueue) ls, Throughout (step queueLoop p n) Good (start q clock) ls ↔
      EachStep (step queueLoop p n) Representable (start q clock) ls) ∧
    (∀ (wg : WaitGroup) ls, Throughout (step groupLoop p n) Good (start wg clock) ls ↔
      EachStep (step groupLoop p n) Representable (start wg clock) ls) :=
  ⟨fun q => reported_iff queueLoop p n q clock, fun wg => reported_iff groupLoop p n wg clock⟩

/-- A pop from an empty queue, a push to a full one and a wait for a counter of one, each
with the largest timeout. -/
def popMax : List (Label MsgQueue.Want MsgQueue.Op) :=
  [.monitor (.lock 0), .begin 0 .pop int64Max, .turn 0 0]

def pushMax : List (Label MsgQueue.Want MsgQueue.Op) :=
  [.monitor (.lock 0), .other 0 (.tryPush [7]), .begin 0 (.push [8]) int64Max, .turn 0 0]

def waitMax : List (Label Unit Int) :=
  [.begin 0 () int64Max, .monitor (.lock 0), .turn 0 0]

/-- One millisecond after the clock began, each of them reports a timeout at once. -/
theorem largest_timeout_expires :
    ((run (step queueLoop .clockwait 1) (start ⟨Queue.init [0] 1 1, false⟩ 1) popMax).map
        (·.reports) = some [⟨int64Max, 1, 1⟩] ∧
      ¬ Throughout (step queueLoop .clockwait 1) Good
        (start ⟨Queue.init [0] 1 1, false⟩ 1) popMax) ∧
    ((run (step queueLoop .clockwait 1) (start ⟨Queue.init [0] 1 1, false⟩ 1) pushMax).map
        (·.reports) = some [⟨int64Max, 1, 1⟩] ∧
      ¬ Throughout (step queueLoop .clockwait 1) Good
        (start ⟨Queue.init [0] 1 1, false⟩ 1) pushMax) ∧
    ((run (step groupLoop .clockwait 1) (start ⟨1⟩ 1) waitMax).map
        (·.reports) = some [⟨int64Max, 1, 1⟩] ∧
      ¬ Throughout (step groupLoop .clockwait 1) Good (start ⟨1⟩ 1) waitMax) := by
  decide

end Coter.TimedCall
