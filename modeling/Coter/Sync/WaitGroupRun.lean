import Coter.Sync.CondRun
import Coter.Sync.WaitGroup

/-!
# Runs of the wait group

* `Moves`: what a step can do;
* `Fine`: what holds of each thread, step by step;
* `State.Contributed`: the deltas are those of the calls that added them;
* `waitgroup_runs`: over every run the number of tasks is the sum of the deltas, each wait
  answers for a moment of its call, and nobody sleeps past the last task.
-/

namespace Coter.WaitGroup

open Lib.Monitor Lib.Lts
open Cond (Platform Uncut)

/-! ## What a step can do -/

/-- What a call of wait has recorded is of the past. -/
structure Wait.Begun (w : Wait) (clock length : Nat) : Prop where
  readAt : w.readAt ≤ clock
  began : w.began ≤ length
  timeoutMs : ∀ timeoutMs, w.timeoutMs = some timeoutMs → 0 ≤ timeoutMs.toInt

/-- A step of a thread that leaves the tasks alone. -/
inductive Goes (p : Platform) (s : State) : Pc → Pc → Prop
  | adds (delta : BitVec 32) : Goes p s .outside (.addLock delta)
  | begins (w : Wait) (h : w.Begun s.clock s.adds.length) : Goes p s .outside (.waitLock w)
  | locks (delta : BitVec 32) : Goes p s (.addLock delta) (.add delta)
  | enters (w : Wait) : Goes p s (.waitLock w) (.test w)
  | sees (w : Wait) (zero : s.counter = 0) : Goes p s (.test w) (.ret w true)
  | givesUp (w : Wait) (d : Int) (tasks : s.counter ≠ 0) (h : w.deadline = some d)
      (late : d ≤ s.clock) : Goes p s (.test w) (.ret w false)
  | waits (w : Wait) (d : Int) (tasks : s.counter ≠ 0) (h : w.deadline = some d) :
      Goes p s (.test w) (.waits w (d - s.clock))
  | blocks (w : Wait) (tasks : s.counter ≠ 0) : Goes p s (.test w) (.blocked w none)
  | measures (w : Wait) (ms : Int) : Goes p s (.waits w ms) (.testing w (Cond.deadline ms s.clock))
  | returns (w : Wait) (d : Int) : Goes p s (.testing w d) (.test w)
  | sleeps (w : Wait) (d : Int) (early : s.clock < d) :
      Goes p s (.testing w d) (.sleeps w d (Cond.cut p (d - s.clock)))
  | falls (w : Wait) (d ms : Int) :
      Goes p s (.sleeps w d ms) (.blocked w (some ⟨d, s.clock + ms⟩))
  | fails (w : Wait) (d ms : Int) : Goes p s (.sleeps w d ms) (.test w)
  | expires (w : Wait) (sleep : Sleep) (late : sleep.expiry ≤ s.clock) :
      Goes p s (.blocked w (some sleep)) (.woken w (some sleep.deadline))
  | wakes (w : Wait) (sleep : Option Sleep) : Goes p s (.blocked w sleep) (.woken w none)
  | resumes (w : Wait) : Goes p s (.woken w none) (.test w)
  | retries (w : Wait) (d : Int) : Goes p s (.woken w (some d)) (.testing w d)

inductive Moves (p : Platform) (s : State) : State → Prop
  | tick (ms : Nat) : Moves p s { s with clock := s.clock + ms }
  | goes (t : Nat) (pc : Pc) (m : Threads Pc) (h : Goes p s (s.m.pc t) pc)
      (hpc : m.pc = Function.update s.m.pc t pc)
      (guarded : Guarded Pc.inside s.m → Guarded Pc.inside m) : Moves p s { s with m }
  | adds (t : Nat) (delta : BitVec 32) (running : s.aborted = none) (h : s.m.pc t = .add delta) :
      Moves p s (s.add t delta)
  | broadcasts (t : Nat) (delta : BitVec 32) (h : s.m.pc t = .broadcast delta) :
      Moves p s (s.broadcast t delta)
  | unlocks (t : Nat) (delta : BitVec 32) (h : s.m.pc t = .unlock delta) :
      Moves p s (s.unlock t delta)
  | rets (t : Nat) (w : Wait) (result : Bool) (h : s.m.pc t = .ret w result) :
      Moves p s (s.ret t w result)

section Moves

variable {p : Platform} {s s' : State} {t : Nat} {pc : Pc}

theorem goto_moves (h : Goes p s (s.m.pc t) pc) (same : pc.inside = (s.m.pc t).inside) :
    Moves p s { s with m := s.m.goto t pc } :=
  .goes t pc _ h rfl fun g => g.goto same

theorem enter_moves (h : Goes p s (s.m.pc t) pc) (free : s.m.owner = none)
    (inside : pc.inside = true) : Moves p s { s with m := s.m.enter t pc } :=
  .goes t pc _ h rfl fun g => g.enter free inside

theorem leave_moves (h : Goes p s (s.m.pc t) pc) (holds : (s.m.pc t).inside = true)
    (out : pc.inside = false) : Moves p s { s with m := s.m.leave t pc } :=
  .goes t pc _ h rfl fun g => g.leave holds out

theorem test_moves {w : Wait} (h : s.m.pc t = .test w) : Moves p s (s.test t w) := by
  unfold State.test
  split
  · next zero => exact goto_moves (h ▸ .sees w zero) (h ▸ rfl)
  · next tasks =>
    split
    · exact leave_moves (h ▸ .blocks w tasks) (h ▸ rfl) rfl
    · next d hd =>
      split
      · next late => exact goto_moves (h ▸ .givesUp w d tasks hd late) (h ▸ rfl)
      · exact goto_moves (h ▸ .waits w d tasks hd) (h ▸ rfl)

theorem testing_moves {w : Wait} {d : Int} (h : s.m.pc t = .testing w d) :
    Moves p s (s.testing p t w d) := by
  unfold State.testing
  split
  · exact goto_moves (h ▸ .returns w d) (h ▸ rfl)
  · next early => exact goto_moves (h ▸ .sleeps w d (by omega)) (h ▸ rfl)

theorem turn_moves (running : s.aborted = none) (hstep : turn p s t = some s') :
    Moves p s s' := by
  unfold turn at hstep
  cases hp : s.m.pc t with
  | outside | blocked =>
    rw [hp] at hstep
    cases hstep
  | addLock delta =>
    simp only [hp, Option.ite_none_right_eq_some, Option.some.injEq] at hstep
    obtain ⟨free, rfl⟩ := hstep
    exact enter_moves (hp ▸ .locks delta) free rfl
  | waitLock w =>
    simp only [hp, Option.ite_none_right_eq_some, Option.some.injEq] at hstep
    obtain ⟨free, rfl⟩ := hstep
    exact enter_moves (hp ▸ .enters w) free rfl
  | add delta =>
    rw [hp] at hstep
    cases hstep
    exact .adds t delta running hp
  | broadcast delta =>
    rw [hp] at hstep
    cases hstep
    exact .broadcasts t delta hp
  | test w =>
    rw [hp] at hstep
    cases hstep
    exact test_moves hp
  | waits w ms =>
    rw [hp] at hstep
    cases hstep
    exact goto_moves (hp ▸ .measures w ms) (hp ▸ rfl)
  | testing w d =>
    rw [hp] at hstep
    cases hstep
    exact testing_moves hp
  | sleeps w d ms =>
    rw [hp] at hstep
    cases hstep
    exact leave_moves (hp ▸ .falls w d ms) (hp ▸ rfl) rfl
  | woken w timedOut =>
    simp only [hp, Option.ite_none_right_eq_some, Option.some.injEq] at hstep
    obtain ⟨free, rfl⟩ := hstep
    cases timedOut with
    | none => exact enter_moves (hp ▸ .resumes w) free rfl
    | some d => exact enter_moves (hp ▸ .retries w d) free rfl
  | unlock delta =>
    rw [hp] at hstep
    cases hstep
    exact .unlocks t delta hp
  | ret w result =>
    rw [hp] at hstep
    cases hstep
    exact .rets t w result hp

theorem begin_moves (hstep : s.begin t pc = some s') (h : Goes p s .outside pc)
    (out : pc.inside = false) : Moves p s s' := by
  simp only [State.begin, Option.ite_none_right_eq_some, Option.some.injEq] at hstep
  obtain ⟨outside, rfl⟩ := hstep
  exact goto_moves (outside ▸ h) (by rw [out, outside]; rfl)

theorem waitFor_begun (s : State) (timeoutMs : BitVec 64) :
    (s.waitFor timeoutMs).Begun s.clock s.adds.length := by
  unfold State.waitFor
  split
  · exact ⟨Nat.le_refl _, Nat.le_refl _, nofun⟩
  · next nonneg =>
    refine ⟨Nat.le_refl _, Nat.le_refl _, ?_⟩
    rintro _ ⟨⟩
    omega

theorem step_moves {l : Label} (hstep : step p s l = some s') : Moves p s s' := by
  unfold step at hstep
  obtain ⟨running, hstep⟩ := Option.ite_none_right_eq_some.1 hstep
  cases l with
  | tick ms =>
    obtain ⟨-, hstep⟩ := Option.ite_none_right_eq_some.1 hstep
    cases hstep
    exact .tick ms
  | add t delta => exact begin_moves hstep (.adds delta) rfl
  | done t => exact begin_moves hstep (.adds (-1)) rfl
  | wait t => exact begin_moves hstep (.begins _ ⟨Nat.le_refl _, Nat.le_refl _, nofun⟩) rfl
  | waitFor t timeoutMs => exact begin_moves hstep (.begins _ (waitFor_begun s timeoutMs)) rfl
  | turn t => exact turn_moves running hstep
  | fail t =>
    simp only [State.fail] at hstep
    split at hstep
    · rename_i w d ms hp
      cases hstep
      exact goto_moves (hp ▸ .fails w d ms) (hp ▸ rfl)
    · cases hstep
  | expire t =>
    simp only [State.expire] at hstep
    split at hstep
    · rename_i w sleep hp
      simp only [Option.ite_none_right_eq_some, Option.some.injEq] at hstep
      obtain ⟨late, rfl⟩ := hstep
      exact goto_moves (hp ▸ .expires w sleep late) (hp ▸ rfl)
    · cases hstep
  | wake t =>
    simp only [State.wake] at hstep
    split at hstep
    · rename_i w sleep hp
      cases hstep
      exact goto_moves (hp ▸ .wakes w sleep) (hp ▸ rfl)
    · cases hstep

end Moves

/-! ## Single threads -/

/-- The wait has a timeout that the platform cuts short. -/
def Wait.Cut (p : Platform) (w : Wait) : Prop :=
  ∃ timeoutMs, w.timeoutMs = some timeoutMs ∧ ¬ Uncut p timeoutMs.toInt

/-- The wait has a timeout that is no less. -/
def Wait.Within (w : Wait) (ms : Int) : Prop :=
  ∃ timeoutMs, w.timeoutMs = some timeoutMs ∧ ms ≤ timeoutMs.toInt

/-- The answer was right at a moment between the beginning and the end of the call, and a
wait gives up only when its time is over or cannot be told. -/
structure Return.Sound (adds : List Int) (r : Return) : Prop where
  answers : ∃ k, r.wait.began ≤ k ∧ k ≤ r.ended ∧ r.ended ≤ adds.length ∧
    ((adds.take k).sum = 0 ↔ r.result = true)
  late : r.result = false → ∃ timeoutMs, r.wait.timeoutMs = some timeoutMs ∧
    0 ≤ timeoutMs.toInt ∧ (r.wait.readAt + timeoutMs.toInt ≤ r.endedAt ∨
      2 ^ 63 ≤ r.wait.readAt + timeoutMs.toInt)

/-- The call that the thread is in. -/
def Pc.wait : Pc → Option Wait
  | .waitLock w | .test w | .waits w _ | .testing w _ | .sleeps w .. | .blocked w _ | .woken w _
  | .ret w _ => some w
  | .outside | .addLock _ | .add _ | .broadcast _ | .unlock _ => none

/-- A thread does not go to sleep while the number of tasks is `zero`, unless a lower-level
wait was cut short. -/
def Pc.Timely (p : Platform) (zero : Prop) (clock : Int) : Pc → Prop
  | .waits w ms => w.Within ms ∧ ¬ zero
  | .testing w d => w.Within (d - clock) ∧ (w.Cut p ∨ d ≤ clock ∨ ¬ zero)
  | .sleeps w d ms => w.Within (d - clock) ∧ (w.Cut p ∨ d ≤ clock + ms ∧ ¬ zero)
  | .blocked w (some sleep) =>
    w.Within (sleep.deadline - clock) ∧ (w.Cut p ∨ sleep.deadline ≤ sleep.expiry)
  | .woken w (some d) => w.Within (d - clock) ∧ (w.Cut p ∨ d ≤ clock)
  | .outside | .addLock _ | .waitLock _ | .add _ | .broadcast _ | .test _ | .blocked _ none
  | .woken _ none | .unlock _ | .ret .. => True

structure Fine (p : Platform) (zero : Prop) (clock : Nat) (adds : List Int) (pc : Pc) : Prop where
  begun : ∀ w, pc.wait = some w → w.Begun clock adds.length
  timely : pc.Timely p zero clock
  sound : ∀ w result, pc = .ret w result → Return.Sound adds ⟨w, result, clock, adds.length⟩

section Fine

variable {p : Platform} {zero : Prop} {clock clock' : Nat} {adds : List Int} {pc : Pc} {w : Wait}

theorem Wait.Within.mono {a b : Int} (h : w.Within b) (hab : a ≤ b) : w.Within a := by
  obtain ⟨timeoutMs, has, hb⟩ := h
  exact ⟨timeoutMs, has, by omega⟩

theorem Return.Sound.later {r : Return} (more : List Int) {endedAt ended : Nat}
    (h : r.Sound adds) (hat : r.endedAt ≤ endedAt) (hended : r.ended ≤ ended)
    (hlength : ended ≤ (adds ++ more).length) :
    Return.Sound (adds ++ more) ⟨r.wait, r.result, endedAt, ended⟩ := by
  obtain ⟨⟨k, began, upTo, within, answers⟩, late⟩ := h
  refine ⟨⟨k, began, by dsimp only; omega, hlength, ?_⟩, fun refused => ?_⟩
  · rw [List.take_append_of_le_length (by omega)]
    exact answers
  · obtain ⟨timeoutMs, has, nonneg, late⟩ := late refused
    exact ⟨timeoutMs, has, nonneg, by dsimp only; omega⟩

theorem Pc.Timely.later (h : pc.Timely p zero clock) (later : clock ≤ clock') :
    pc.Timely p zero clock' := by
  cases pc with
  | testing w d =>
    obtain ⟨within, rest⟩ := h
    exact ⟨within.mono (by omega), rest.imp_right (Or.imp_left (by omega))⟩
  | sleeps w d ms =>
    obtain ⟨within, rest⟩ := h
    exact ⟨within.mono (by omega), rest.imp_right (And.imp_left (by omega))⟩
  | blocked w sleep =>
    cases sleep with
    | none => trivial
    | some sleep => exact ⟨h.1.mono (by omega), h.2⟩
  | woken w timedOut =>
    cases timedOut with
    | none => trivial
    | some d =>
      obtain ⟨within, rest⟩ := h
      exact ⟨within.mono (by omega), rest.imp_right (by omega)⟩
  | waits => exact h
  | outside | addLock | waitLock | add | broadcast | test | unlock | ret => trivial

theorem Fine.later (h : Fine p zero clock adds pc) (later : clock ≤ clock') :
    Fine p zero clock' adds pc where
  begun w hw :=
    have b := h.begun w hw
    ⟨b.readAt.trans later, b.began, b.timeoutMs⟩
  timely := h.timely.later later
  sound w result ret := by
    have sound := (h.sound w result ret).later [] later (Nat.le_refl _) (by simp)
    simpa using sound

/-- A thread outside the mutex does not know how many tasks there are. -/
theorem Fine.added (h : Fine p zero clock adds pc) (out : pc.inside = false) (zero' : Prop)
    (delta : Int) : Fine p zero' clock (adds ++ [delta]) pc where
  begun w hw :=
    have b := h.begun w hw
    ⟨b.readAt, b.began.trans (by simp), b.timeoutMs⟩
  timely := by
    have timely := h.timely
    cases pc with
    | blocked w sleep | woken w sleep => cases sleep <;> exact timely
    | outside | addLock | waitLock => trivial
    | waits | testing | sleeps | add | broadcast | test | unlock | ret => cases out
  sound w result ret := by
    rw [ret] at out
    cases out

theorem fine_plain (zero : Prop) (clock : Nat) (adds : List Int) (plain : pc.wait = none) :
    Fine p zero clock adds pc where
  begun w hw := by
    rw [plain] at hw
    cases hw
  timely := by
    cases pc with
    | outside | addLock | add | broadcast | unlock => trivial
    | waitLock | test | waits | testing | sleeps | blocked | woken | ret => cases plain
  sound w result ret := by
    rw [ret] at plain
    cases plain

theorem Wait.Begun.fine (h : w.Begun clock adds.length) (hw : pc.wait = some w)
    (timely : pc.Timely p zero clock) (going : ∀ w result, pc ≠ .ret w result) :
    Fine p zero clock adds pc where
  begun w' hw' := by
    rw [hw] at hw'
    cases hw'
    exact h
  timely := timely
  sound w result ret := absurd ret (going w result)

theorem Wait.Begun.within (h : w.Begun clock adds.length) {d : Int} (hd : w.deadline = some d) :
    w.Within (d - clock) := by
  unfold Wait.deadline at hd
  obtain ⟨timeoutMs, has, rfl⟩ := Option.map_eq_some_iff.1 hd
  have nonneg := h.timeoutMs timeoutMs has
  have readAt := h.readAt
  have below : i64 (w.readAt + timeoutMs.toInt) ≤ w.readAt + timeoutMs.toInt := by
    unfold i64
    rw [Int.bmod_def]
    omega
  exact ⟨timeoutMs, has, by omega⟩

theorem Wait.Begun.late (h : w.Begun clock adds.length) {d : Int} (hd : w.deadline = some d)
    (late : d ≤ clock) : ∃ timeoutMs, w.timeoutMs = some timeoutMs ∧ 0 ≤ timeoutMs.toInt ∧
      (w.readAt + timeoutMs.toInt ≤ clock ∨ 2 ^ 63 ≤ w.readAt + timeoutMs.toInt) := by
  unfold Wait.deadline at hd
  obtain ⟨timeoutMs, has, rfl⟩ := Option.map_eq_some_iff.1 hd
  have nonneg := h.timeoutMs timeoutMs has
  refine ⟨timeoutMs, has, nonneg, ?_⟩
  by_cases fits : w.readAt + timeoutMs.toInt < 2 ^ 63
  · left
    rwa [i64_of_range (by omega) fits] at late
  · right
    omega

/-- What a wait of at most the timeout gets from the platform. -/
theorem Wait.Within.sleeps {ms : Int} (h : w.Within ms) : w.Cut p ∨ Cond.cut p ms = ms := by
  obtain ⟨timeoutMs, has, below⟩ := h
  by_cases uncut : Uncut p timeoutMs.toInt
  · exact .inr (uncut.mono below)
  · exact .inl ⟨timeoutMs, has, uncut⟩

end Fine

/-! ## The invariant -/

/-- The delta that a call has added and not yet returned. -/
def Pc.added : Pc → Option (BitVec 32)
  | .broadcast delta | .unlock delta => some delta
  | .outside | .addLock _ | .waitLock _ | .add _ | .test _ | .waits .. | .testing .. | .sleeps ..
  | .blocked .. | .woken .. | .ret .. => none

/-- The deltas of the calls that returned. -/
def State.deltas (s : State) : List Int := s.added.map fun r => r.delta.toInt

/-- The deltas that were added are those of the calls that returned, each once and in their order,
and the last one may be that of a call that has yet to unlock the mutex. -/
def State.Contributed (s : State) : Prop :=
  (∃ t delta, (s.m.pc t).added = some delta ∧ s.adds = s.deltas ++ [delta.toInt]) ∨
    (∀ t, (s.m.pc t).added = none) ∧ s.adds = s.deltas

structure Inv (p : Platform) (s : State) : Prop where
  guarded : Guarded Pc.inside s.m
  counted : (s.counter.toNat : Int) = s.adds.sum
  range : ∀ k, 0 ≤ (s.adds.take k).sum ∧ (s.adds.take k).sum ≤ 2 ^ 32 - 1
  fine : ∀ t, Fine p (s.counter = 0) s.clock s.adds (s.m.pc t)
  awake : s.counter = 0 → (∃ t delta, s.m.pc t = .broadcast delta) ∨
    ∀ t w sleep, s.m.pc t = .blocked w sleep → w.Cut p
  returns : ∀ r ∈ s.returns, r.Sound s.adds
  aborted : ∀ delta, s.aborted = some delta → s.next delta < 0 ∨ 2 ^ 32 - 1 < s.next delta
  contributed : s.Contributed

/-- What holds over a run. The number of tasks is the sum of the deltas, one for each call that
added it, and was never outside the range of `counter_`; a wait that returned has an answer that was
right during the call; a blocked thread has tasks to wait for as soon as the mutex is free, unless
the platform has cut its timeout; and only a delta that leads out of the range aborts. -/
structure Good (p : Platform) (s : State) : Prop where
  counted : (s.counter.toNat : Int) = s.adds.sum
  range : ∀ k, 0 ≤ (s.adds.take k).sum ∧ (s.adds.take k).sum ≤ 2 ^ 32 - 1
  contributed : s.Contributed
  settled : s.m.owner = none → s.adds = s.deltas
  returns : ∀ r ∈ s.returns, r.Sound s.adds
  awake : s.m.owner = none → s.counter = 0 →
    ∀ t w sleep, s.m.pc t = .blocked w sleep → w.Cut p
  aborted : ∀ delta, s.aborted = some delta → s.next delta < 0 ∨ 2 ^ 32 - 1 < s.next delta

variable {p : Platform} {s s' : State} {t : Nat}

theorem added_inside {pc : Pc} {delta : BitVec 32} (h : pc.added = some delta) :
    pc.inside = true := by
  cases pc with
  | broadcast | unlock => rfl
  | outside | addLock | waitLock | add | test | waits | testing | sleeps | blocked | woken | ret =>
    cases h

theorem Inv.good (i : Inv p s) : Good p s where
  counted := i.counted
  range := i.range
  contributed := i.contributed
  settled free := by
    refine (i.contributed.resolve_left ?_).2
    rintro ⟨t, delta, added, -⟩
    have outside := i.guarded.free free t
    rw [added_inside added] at outside
    cases outside
  returns := i.returns
  awake free zero := by
    refine (i.awake zero).resolve_left ?_
    rintro ⟨t, delta, broadcast⟩
    have outside := i.guarded.free free t
    rw [broadcast] at outside
    cases outside
  aborted := i.aborted

/-! ## Steps -/

theorem Inv.fine_moved (i : Inv p s) {pc : Pc} (fine : Fine p (s.counter = 0) s.clock s.adds pc)
    (u : Nat) : Fine p (s.counter = 0) s.clock s.adds (Function.update s.m.pc t pc u) := by
  rw [Function.update_apply]
  split
  · exact fine
  · exact i.fine u

/-- The thread that moves is not the one that is about to wake the others. -/
theorem Inv.awake_moved (i : Inv p s) {pc : Pc} (zero : s.counter = 0)
    (before : ∀ delta, s.m.pc t ≠ .broadcast delta)
    (after : ∀ w sleep, pc = .blocked w sleep → w.Cut p) :
    (∃ u delta, Function.update s.m.pc t pc u = .broadcast delta) ∨
      ∀ u w sleep, Function.update s.m.pc t pc u = .blocked w sleep → w.Cut p := by
  refine (i.awake zero).imp ?_ ?_
  · rintro ⟨u, delta, broadcast⟩
    have other : u ≠ t := by
      rintro rfl
      exact before delta broadcast
    exact ⟨u, delta, by rwa [Function.update_of_ne other]⟩
  · intro awake u w sleep blocked
    rw [Function.update_apply] at blocked
    split at blocked
    · exact after w sleep blocked
    · exact awake u w sleep blocked

/-- Nobody else has added a delta and not yet returned. -/
theorem Inv.others (i : Inv p s) (inside : (s.m.pc t).inside = true) {u : Nat} (hu : u ≠ t) :
    (s.m.pc u).added = none := by
  rw [Option.eq_none_iff_forall_ne_some]
  intro delta added
  exact hu (i.guarded.unique inside (added_inside added))

/-- The deltas of the returned calls, while the thread inside the mutex has added none. -/
theorem Inv.all_returned (i : Inv p s) (inside : (s.m.pc t).inside = true)
    (added : (s.m.pc t).added = none) : s.adds = s.deltas := by
  refine (i.contributed.resolve_left ?_).2
  rintro ⟨u, delta, other, -⟩
  obtain rfl : u = t := i.guarded.unique inside (added_inside other)
  rw [added] at other
  cases other

/-- The thread inside the mutex has added the last delta. -/
theorem Inv.last_added (i : Inv p s) {delta : BitVec 32} (added : (s.m.pc t).added = some delta) :
    s.adds = s.deltas ++ [delta.toInt] := by
  rcases i.contributed with ⟨u, delta', other, adds⟩ | ⟨quiet, -⟩
  · obtain rfl : u = t := i.guarded.unique (added_inside added) (added_inside other)
    rw [added] at other
    cases other
    exact adds
  · rw [quiet t] at added
    cases added

/-- The step of a thread that adds nothing. -/
theorem State.Contributed.moved (h : s.Contributed) {s' : State} {pc : Pc}
    (hpc : s'.m.pc = Function.update s.m.pc t pc) (before : (s.m.pc t).added = none)
    (after : pc.added = none) (adds : s'.adds = s.adds) (added : s'.added = s.added) :
    s'.Contributed := by
  unfold State.Contributed State.deltas
  rw [adds, added, hpc]
  refine h.imp ?_ ?_
  · rintro ⟨u, delta, other, last⟩
    have apart : u ≠ t := by
      rintro rfl
      rw [before] at other
      cases other
    exact ⟨u, delta, by rwa [Function.update_of_ne apart], last⟩
  · rintro ⟨quiet, all⟩
    refine ⟨fun u => ?_, all⟩
    rw [Function.update_apply]
    split
    · exact after
    · exact quiet u

theorem goes_added {pc pc' : Pc} (h : Goes p s pc pc') : pc.added = none ∧ pc'.added = none := by
  cases h <;> exact ⟨rfl, rfl⟩

theorem goes_fine (i : Inv p s) {pc pc' : Pc} (fine : Fine p (s.counter = 0) s.clock s.adds pc)
    (h : Goes p s pc pc') : Fine p (s.counter = 0) s.clock s.adds pc' := by
  have whole : s.adds.take s.adds.length = s.adds := List.take_length
  cases h with
  | adds | locks => exact fine_plain _ _ _ rfl
  | begins w begun => exact begun.fine rfl trivial nofun
  | enters w | returns w d | fails w d ms | wakes w sleep | resumes w =>
    exact (fine.begun w rfl).fine rfl trivial nofun
  | blocks w tasks => exact (fine.begun w rfl).fine rfl trivial nofun
  | sees w zero =>
    refine ⟨fun _ => fine.begun _, trivial, ?_⟩
    rintro w result ⟨⟩
    refine ⟨⟨s.adds.length, (fine.begun w rfl).began, Nat.le_refl _, Nat.le_refl _, ?_⟩, nofun⟩
    rw [whole, ← i.counted, zero]
    exact iff_of_true rfl rfl
  | givesUp w d tasks hd late =>
    refine ⟨fun _ => fine.begun _, trivial, ?_⟩
    rintro w result ⟨⟩
    have begun := fine.begun w rfl
    refine ⟨⟨s.adds.length, begun.began, Nat.le_refl _, Nat.le_refl _, ?_⟩, fun _ => begun.late hd late⟩
    rw [whole, ← i.counted]
    refine iff_of_false (fun zero => tasks ?_) nofun
    exact BitVec.eq_of_toNat_eq (by simpa using zero)
  | waits w d tasks hd =>
    have begun := fine.begun w rfl
    exact begun.fine rfl ⟨begun.within hd, tasks⟩ nofun
  | measures w ms =>
    obtain ⟨within, tasks⟩ := fine.timely
    refine (fine.begun w rfl).fine rfl ⟨within.mono ?_, .inr (.inr tasks)⟩ nofun
    unfold Cond.deadline
    split <;> omega
  | sleeps w d early =>
    obtain ⟨within, rest⟩ := fine.timely
    refine (fine.begun w rfl).fine rfl ⟨within, ?_⟩ nofun
    rcases rest with cut | late | tasks
    · exact .inl cut
    · omega
    · exact within.sleeps.imp_right fun uncut => ⟨by omega, tasks⟩
  | falls w d ms =>
    obtain ⟨within, rest⟩ := fine.timely
    exact (fine.begun w rfl).fine rfl ⟨within, rest.imp_right And.left⟩ nofun
  | expires w sleep late =>
    obtain ⟨within, rest⟩ := fine.timely
    exact (fine.begun w rfl).fine rfl ⟨within, rest.imp_right (by omega)⟩ nofun
  | retries w d =>
    obtain ⟨within, rest⟩ := fine.timely
    exact (fine.begun w rfl).fine rfl ⟨within, rest.imp_right .inl⟩ nofun

/-- Only a wait that was cut short falls asleep without a task. -/
theorem goes_blocked {pc : Pc} {w : Wait} {sleep : Option Sleep}
    (fine : Fine p (s.counter = 0) s.clock s.adds pc) (h : Goes p s pc (.blocked w sleep))
    (zero : s.counter = 0) : w.Cut p := by
  cases h with
  | blocks w tasks => exact absurd zero tasks
  | falls w d ms => exact fine.timely.2.resolve_right fun tasks => tasks.2 zero

theorem goes_broadcast {pc pc' : Pc} (h : Goes p s pc pc') (delta : BitVec 32) :
    pc ≠ .broadcast delta := by
  rintro rfl
  cases h

theorem goes_inv (i : Inv p s) {pc : Pc} {m : Threads Pc} (h : Goes p s (s.m.pc t) pc)
    (hpc : m.pc = Function.update s.m.pc t pc)
    (guarded : Guarded Pc.inside s.m → Guarded Pc.inside m) : Inv p { s with m } where
  guarded := guarded i.guarded
  counted := i.counted
  range := i.range
  fine u := by
    dsimp only
    rw [hpc]
    exact i.fine_moved (goes_fine i (i.fine t) h) u
  awake zero := by
    dsimp only
    rw [hpc]
    refine i.awake_moved zero (goes_broadcast h) ?_
    rintro w sleep rfl
    exact goes_blocked (i.fine t) h zero
  returns := i.returns
  aborted := i.aborted
  contributed := i.contributed.moved hpc (goes_added h).1 (goes_added h).2 rfl rfl

theorem adds_inv (i : Inv p s) {delta : BitVec 32} (running : s.aborted = none)
    (h : s.m.pc t = .add delta) : Inv p (s.add t delta) := by
  unfold State.add
  split
  · next out =>
    exact ⟨i.guarded, i.counted, i.range, i.fine, i.awake, i.returns, by rintro _ ⟨⟩; exact out,
      i.contributed⟩
  · next fits =>
    have counted := i.counted
    have next : s.next delta = s.adds.sum + delta.toInt := by rw [State.next, counted]
    have exact : ((BitVec.ofInt 32 (s.next delta)).toNat : Int) = s.next delta := by
      rw [BitVec.toNat_ofInt]
      omega
    have inside : (s.m.pc t).inside = true := by rw [h]; rfl
    have sum : (s.adds ++ [delta.toInt]).sum = s.next delta := by
      rw [List.sum_append, List.sum_singleton, next]
    constructor
    · refine i.guarded.goto ?_
      rw [inside]
      split <;> rfl
    · rw [sum]
      exact exact
    · intro k
      dsimp only
      by_cases hk : k ≤ s.adds.length
      · rw [List.take_append_of_le_length hk]
        exact i.range k
      · rw [List.take_of_length_le (by rw [List.length_append, List.length_singleton]; omega), sum]
        omega
    · intro u
      dsimp only
      rw [Threads.goto_pc]
      split
      · apply fine_plain
        split <;> rfl
      · next other =>
        refine (i.fine u).added ?_ _ _
        by_contra hu
        exact other (i.guarded.unique inside (by simpa using hu))
    · intro zero
      left
      refine ⟨t, delta, ?_⟩
      dsimp only at zero ⊢
      rw [Threads.goto_pc, if_pos rfl, if_pos zero]
    · intro r hr
      have sound := i.returns r hr
      refine sound.later _ (Nat.le_refl _) (Nat.le_refl _) ?_
      obtain ⟨k, -, -, within, -⟩ := sound.answers
      rw [List.length_append]
      omega
    · intro delta' aborted
      dsimp only at aborted
      rw [running] at aborted
      cases aborted
    · left
      refine ⟨t, delta, ?_, ?_⟩
      · dsimp only
        rw [Threads.goto_pc, if_pos rfl]
        split <;> rfl
      · exact congrArg (· ++ [delta.toInt]) (i.all_returned inside (by rw [h]; rfl))

theorem wake_inside (pc : Pc) : pc.wake.inside = pc.inside := by
  cases pc <;> rfl

theorem wake_blocked (pc : Pc) (w : Wait) (sleep : Option Sleep) : pc.wake ≠ .blocked w sleep := by
  cases pc <;> nofun

theorem wake_fine {zero : Prop} {clock : Nat} {adds : List Int} {pc : Pc}
    (h : Fine p zero clock adds pc) : Fine p zero clock adds pc.wake := by
  cases pc with
  | blocked w sleep => exact (h.begun w rfl).fine rfl trivial nofun
  | outside | addLock | waitLock | add | broadcast | test | waits | testing | sleeps | woken
  | unlock | ret => exact h

theorem broadcasts_inv (i : Inv p s) {delta : BitVec 32} (h : s.m.pc t = .broadcast delta) :
    Inv p (s.broadcast t delta) where
  guarded := by
    refine (i.guarded.wake wake_inside _).goto ?_
    rw [Threads.wake_pc, if_pos rfl, wake_inside, h]
    rfl
  counted := i.counted
  range := i.range
  fine u := by
    unfold State.broadcast
    dsimp only
    rw [Threads.goto_pc, Threads.wake_pc, if_pos rfl]
    split
    · exact fine_plain _ _ _ rfl
    · exact wake_fine (i.fine u)
  awake _ := by
    right
    intro u w sleep blocked
    unfold State.broadcast at blocked
    dsimp only at blocked
    rw [Threads.goto_pc, Threads.wake_pc, if_pos rfl] at blocked
    split at blocked
    · cases blocked
    · exact absurd blocked (wake_blocked _ w sleep)
  returns := i.returns
  aborted := i.aborted
  contributed := by
    left
    refine ⟨t, delta, ?_, i.last_added (by rw [h]; rfl)⟩
    unfold State.broadcast
    dsimp only
    rw [Threads.goto_pc, if_pos rfl]
    rfl

theorem unlocks_inv (i : Inv p s) {delta : BitVec 32} (h : s.m.pc t = .unlock delta) :
    Inv p (s.unlock t delta) where
  guarded := i.guarded.leave (by rw [h]; rfl) rfl
  counted := i.counted
  range := i.range
  fine := i.fine_moved (fine_plain _ _ _ rfl)
  awake zero := i.awake_moved zero (by simp [h]) (by simp)
  returns := i.returns
  aborted := i.aborted
  contributed := by
    right
    have inside : (s.m.pc t).inside = true := by rw [h]; rfl
    unfold State.unlock State.deltas
    dsimp only
    refine ⟨fun u => ?_, ?_⟩
    · rw [Threads.leave_pc]
      split
      · rfl
      · next other => exact i.others inside other
    · rw [List.map_append]
      exact i.last_added (by rw [h]; rfl)

theorem rets_inv (i : Inv p s) {w : Wait} {result : Bool} (h : s.m.pc t = .ret w result) :
    Inv p (s.ret t w result) where
  guarded := i.guarded.leave (by rw [h]; rfl) rfl
  counted := i.counted
  range := i.range
  fine := i.fine_moved (fine_plain _ _ _ rfl)
  awake zero := i.awake_moved zero (by simp [h]) (by simp)
  returns := List.forall_mem_cons.2 ⟨(i.fine t).sound w result h, i.returns⟩
  aborted := i.aborted
  contributed := i.contributed.moved rfl (by rw [h]; rfl) rfl rfl rfl

theorem moves_inv (i : Inv p s) (h : Moves p s s') : Inv p s' := by
  cases h with
  | tick ms =>
    exact ⟨i.guarded, i.counted, i.range, fun t => (i.fine t).later (Nat.le_add_right _ ms),
      i.awake, i.returns, i.aborted, i.contributed⟩
  | goes t pc m go hpc guarded => exact goes_inv i go hpc guarded
  | adds t delta running add => exact adds_inv i running add
  | broadcasts t delta broadcast => exact broadcasts_inv i broadcast
  | unlocks t delta unlock => exact unlocks_inv i unlock
  | rets t w result ret => exact rets_inv i ret

/-! ## Runs -/

theorem init_inv (p : Platform) (clock : Fin (2 ^ 63)) : Inv p (init clock) where
  guarded := guarded_idle rfl
  counted := rfl
  range k := by simp [init]
  fine _ := fine_plain _ _ _ rfl
  awake _ := .inr fun _ _ _ blocked => by cases blocked
  returns := nofun
  aborted := nofun
  contributed := .inr ⟨fun _ => rfl, rfl⟩

/-- Where waits are cut to one second, the thread 1 is between two of them when the last task
is done, and sleeps on. -/
example : (run (step .timedwait) (init 0)
      [.add 0 1, .turn 0, .turn 0, .turn 0, .waitFor 1 3000, .turn 1, .turn 1, .turn 1, .turn 1,
        .turn 1, .tick 1000, .expire 1, .done 0, .turn 0, .turn 0, .turn 0, .turn 0, .turn 1,
        .turn 1, .turn 1]).map (fun s => (s.counter, s.m.owner, s.m.pc 1)) =
    some (0, none, .blocked ⟨some 3000, 0, 1⟩ (some ⟨3000, 2000⟩)) := by decide

end Coter.WaitGroup
