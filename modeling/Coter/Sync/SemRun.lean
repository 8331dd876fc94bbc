import Coter.Lib.Counting
import Coter.Lib.Lts
import Coter.Lib.Wakeups
import Coter.Sync.Sem

/-!
# Runs of the semaphore

* `Moves`: what a step can do;
* `moves_inv`: the tokens are counted, and each finds a thread that is up for it;
* `Reported`: what was posted, taken and given up is what the calls return;
* `sem_runs`: over every run, as long as `count_` does not wrap around, no token is lost
  or left lying while a thread sleeps, and no wait times out early.
-/

namespace Coter.Sem

open Lib.Monitor Lib.Lts Lib.Wakeups

/-! ## What a step can do -/

/-- The first step under the mutex. -/
inductive Enters : Pc → Pc → Prop
  | begins (call : Call) : Enters (.lock call) call.first
  | resumes (limit : Option Limit) : Enters (.woken limit .ok) (.test limit)
  | fails (limit : Option Limit) (result : Code) (h : result ≠ .ok) :
      Enters (.woken limit result) (.unlock (waiting limit) .einval)

/-- A step of a thread that leaves the tokens alone. -/
inductive Goes (s : State) : Pc → Pc → Prop
  | calls (call : Call) : Goes s .outside (.lock call)
  | reads (timeoutMs : BitVec 32) :
      Goes s (.reads timeoutMs) (.test (some (limit s.clock timeoutMs)))
  | refuses (h : s.count = 0) : Goes s .look (.unlock .trywait .eagain)
  | fails (limit : Option Limit) (h : s.count = 0) :
      Goes s (.test limit) (.unlock (waiting limit) .einval)
  | wakes (limit : Option Limit) : Goes s (.blocked limit) (.woken limit .ok)
  | expires (l : Limit) (h : l.reached s.clock = true) :
      Goes s (.blocked (some l)) (.woken (some l) .etimedout)

/-- The thread is about to take a token for the call, if there is one. -/
inductive Takes : Pc → Call → Prop
  | look : Takes .look .trywait
  | test (limit : Option Limit) : Takes (.test limit) (waiting limit)

inductive Moves (n : Nat) (s : State) : Label → State → Prop
  | tick (ns : Nat) : Moves n s (.tick ns) { s with clock := s.clock + ns }
  | goes {l : Label} (t : Nat) (pc : Pc) (ht : s.m.pc t = .outside → t < n)
      (h : Goes s (s.m.pc t) pc) : Moves n s l { s with m := s.m.goto t pc }
  | enters {l : Label} (t : Nat) (pc : Pc) (free : s.m.owner = none) (h : Enters (s.m.pc t) pc) :
      Moves n s l { s with m := s.m.enter t pc }
  | givesUp {l : Label} (t : Nat) (limit : Limit) (free : s.m.owner = none)
      (h : s.m.pc t = .woken (some limit) .etimedout) :
      Moves n s l { s with
        m := s.m.enter t (.unlock (.waitFor limit.timeoutMs) .etimedout)
        timeouts := ⟨limit.readAt, limit.timeoutMs, s.clock⟩ :: s.timeouts }
  | blocks {l : Label} (t : Nat) (limit : Option Limit) (h : s.m.pc t = .test limit)
      (none : s.count = 0) : Moves n s l { s with m := s.m.leave t (.blocked limit) }
  | takes {l : Label} (t : Nat) (call : Call) (h : Takes (s.m.pc t) call)
      (some : s.count ≠ 0) : Moves n s l (s.take t call)
  | adds (t : Nat) (woke : Option Nat) (h : s.m.pc t = .add) : Moves n s (.turn t woke) (s.add t)
  | notifies {l : Label} (t : Nat) (woke : Option Nat) (h : s.m.pc t = .notify)
      (may : s.m.MayWake Pc.isBlocked n woke) : Moves n s l (s.notify t woke)
  | unlocks {l : Label} (t : Nat) (call : Call) (result : Code)
      (h : s.m.pc t = .unlock call result) : Moves n s l (s.unlock t call result)

section Moves

variable {n : Nat} {s s' : State} {t : Nat} {l : Label}

theorem reacquire_moves {limit : Option Limit} {result : Code}
    (h : s.m.pc t = .woken limit result) (free : s.m.owner = none) :
    Moves n s l (s.reacquire t limit result) := by
  unfold State.reacquire
  split
  · exact .enters t _ free (h ▸ .resumes _)
  · exact .givesUp t _ free h
  · rename_i bad _
    exact .enters t _ free (h ▸ .fails _ _ bad)

theorem turn_moves {woke : Option Nat} (hstep : turn n s t woke = some s') :
    Moves n s (.turn t woke) s' := by
  unfold turn at hstep
  cases hp : s.m.pc t with
  | outside | blocked =>
    rw [hp] at hstep
    cases hstep
  | lock call =>
    simp only [hp, Option.ite_none_right_eq_some, Option.some.injEq] at hstep
    obtain ⟨free, rfl⟩ := hstep
    exact .enters t _ free (hp ▸ .begins call)
  | reads timeoutMs =>
    rw [hp] at hstep
    cases hstep
    exact .goes t _ (by simp [hp]) (hp ▸ .reads timeoutMs)
  | test limit =>
    rw [hp] at hstep
    cases hstep
    unfold State.test
    split
    · next none => exact .blocks t limit hp none
    · next some => exact .takes t _ (hp ▸ .test limit) some
  | woken limit result =>
    simp only [hp, Option.ite_none_right_eq_some, Option.some.injEq] at hstep
    obtain ⟨free, rfl⟩ := hstep
    exact reacquire_moves hp free
  | look =>
    rw [hp] at hstep
    cases hstep
    unfold State.look
    split
    · next none => exact .goes t _ (by simp [hp]) (hp ▸ .refuses none)
    · next some => exact .takes t _ (hp ▸ .look) some
  | add =>
    rw [hp] at hstep
    cases hstep
    exact .adds t woke hp
  | notify =>
    simp only [hp, Option.ite_none_right_eq_some, Option.some.injEq] at hstep
    obtain ⟨may, rfl⟩ := hstep
    exact .notifies t woke hp may
  | unlock call result =>
    rw [hp] at hstep
    cases hstep
    exact .unlocks t call result hp

theorem fail_moves (hstep : s.fail t = some s') : Moves n s l s' := by
  unfold State.fail at hstep
  split at hstep
  · rename_i limit hp
    simp only [Option.ite_none_right_eq_some, Option.some.injEq] at hstep
    obtain ⟨none, rfl⟩ := hstep
    exact .goes t _ (by simp [hp]) (hp ▸ .fails limit none)
  · cases hstep

theorem expire_moves (hstep : s.expire t = some s') : Moves n s l s' := by
  unfold State.expire at hstep
  split at hstep
  · rename_i limit hp
    simp only [Option.ite_none_right_eq_some, Option.some.injEq] at hstep
    obtain ⟨late, rfl⟩ := hstep
    exact .goes t _ (by simp [hp]) (hp ▸ .expires limit late)
  · cases hstep

theorem step_moves (hstep : step n s l = some s') : Moves n s l s' := by
  cases l with
  | tick ns =>
    cases hstep
    exact .tick ns
  | call t call =>
    simp only [step, Option.ite_none_right_eq_some, Option.some.injEq] at hstep
    obtain ⟨⟨ht, out⟩, rfl⟩ := hstep
    exact .goes t _ (fun _ => ht) (out ▸ .calls call)
  | turn t woke => exact turn_moves hstep
  | fail t => exact fail_moves hstep
  | wake t =>
    simp only [step, Option.ite_none_right_eq_some, Option.some.injEq] at hstep
    obtain ⟨waits, rfl⟩ := hstep
    cases hp : s.m.pc t with
    | blocked limit =>
      refine .goes t _ (by simp [hp]) ?_
      rw [hp]
      exact .wakes limit
    | outside | lock | reads | test | woken | look | add | notify | unlock =>
      rw [hp] at waits
      cases waits
  | expire t => exact expire_moves hstep

end Moves

/-! ## The tokens -/

/-- A thread at a test, or on its way to one, will see the tokens, and one that has
brought a token will wake another. -/
def Pc.place : Pc → Place
  | .blocked _ => .asleep
  | .test _ | .notify | .woken _ .ok => .attentive
  | .outside | .lock _ | .reads _ | .woken .. | .look | .add | .unlock .. => .away

/-- The thread is on its way back to the mutex and will look at the tokens. -/
def Pc.isReady : Pc → Bool
  | .woken _ result => result = .ok
  | _ => false

/-- The thread is about to return one of the answers `counts`. A post that has yet to signal
has brought its token. -/
def Pc.returns (counts : Call → Code → Bool) : Pc → Bool
  | .notify => counts .post .ok
  | .unlock call result => counts call result
  | .outside | .lock _ | .reads _ | .test _ | .blocked _ | .woken .. | .look | .add => false

/-- What the calls return of what they did: the answers `counts` of those that have returned,
and of the threads that are about to return. -/
def State.returned (n : Nat) (s : State) (counts : Call → Code → Bool) : Nat :=
  s.returns.countP (fun r => counts r.call r.result) +
    (List.range n).countP fun t => (s.m.pc t).returns counts

/-- A post that succeeded. -/
def Call.posts (call : Call) (result : Code) : Bool := call == .post && result == .ok

/-- A wait of any kind that succeeded. -/
def Call.takes (call : Call) (result : Code) : Bool := call != .post && result == .ok

/-- A wait of this timeout that gave up. -/
def Call.givesUp (timeoutMs : BitVec 32) (call : Call) (result : Code) : Bool :=
  call == .waitFor timeoutMs && result == .etimedout

/-- The tokens that were posted and taken and the waits that gave up are those of the calls. -/
structure Reported (n : Nat) (s : State) : Prop where
  posted : s.posted = s.returned n Call.posts
  taken : s.taken = s.returned n Call.takes
  timeouts : ∀ timeoutMs, s.timeouts.countP (fun r => r.timeoutMs == timeoutMs) =
    s.returned n (Call.givesUp timeoutMs)

structure Inv (n : Nat) (value : Nat) (s : State) : Prop where
  guarded : Guarded Pc.inside s.m
  bounded : ∀ t, s.m.pc t ≠ .outside → t < n
  range : s.count < 2 ^ 32
  conserved : s.count + s.taken = value + s.posted
  served : Served n (fun t => (s.m.pc t).place) s.count
  expired : ∀ t l, s.m.pc t = .woken (some l) .etimedout → l.reached s.clock = true
  inTime : ∀ r ∈ s.timeouts, r.readAt + r.timeoutMs.toNat * nsPerMs ≤ r.reportedAt
  reported : Reported n s

/-- What holds over a run. No token is lost between the calls that brought and took them, while
the mutex is free a blocked thread has a ready one beside it for each token, and no wait times out
early. -/
structure Good (n : Nat) (value : Nat) (s : State) : Prop where
  conserved : s.count + s.taken = value + s.posted
  reported : Reported n s
  served : s.m.owner = none → (∃ t, (s.m.pc t).isBlocked = true) →
    s.count ≤ (List.range n).countP fun t => (s.m.pc t).isReady
  inTime : ∀ r ∈ s.timeouts, r.readAt + r.timeoutMs.toNat * nsPerMs ≤ r.reportedAt

/-- The step does not wrap `count_` around. -/
def NoWrap (s : State) : Label → Prop
  | .turn t _ => s.m.pc t = .add → s.count < 2 ^ 32 - 1
  | .tick _ | .call .. | .fail _ | .wake _ | .expire _ => True

instance (s : State) : DecidablePred (NoWrap s)
  | .turn .. => inferInstanceAs (Decidable (_ → _))
  | .tick _ | .call .. | .fail _ | .wake _ | .expire _ => inferInstanceAs (Decidable True)

variable {n value t : Nat} {s s' : State} {l : Label}

theorem place_blocked {pc : Pc} : pc.place = .asleep ↔ pc.isBlocked = true := by
  cases pc with
  | woken limit result => cases result <;> simp [Pc.place, Pc.isBlocked]
  | outside | lock | reads | test | blocked | look | add | notify | unlock =>
    simp [Pc.place, Pc.isBlocked]

/-- While the mutex is free, the attentive threads are those on their way back to it. -/
theorem place_ready {pc : Pc} (out : pc.inside = false) :
    pc.place = .attentive ↔ pc.isReady = true := by
  cases pc with
  | woken limit result => cases result <;> simp [Pc.place, Pc.isReady]
  | outside | lock | blocked => simp [Pc.place, Pc.isReady]
  | reads | test | look | add | notify | unlock => cases out

theorem Inv.good (i : Inv n value s) : Good n value s where
  conserved := i.conserved
  reported := i.reported
  inTime := i.inTime
  served free := by
    rintro ⟨t, ht⟩
    have below : t < n := by
      apply i.bounded
      intro out
      rw [out] at ht
      cases ht
    have ready : (fun u => decide ((s.m.pc u).place = .attentive)) = fun u => (s.m.pc u).isReady := by
      funext u
      rw [Bool.eq_iff_iff, decide_eq_true_iff]
      exact place_ready (i.guarded.free free u)
    rw [← ready]
    exact i.served ⟨t, below, place_blocked.2 ht⟩

theorem update_place (f : Nat → Pc) (t : Nat) (pc : Pc) :
    (fun u => (Function.update f t pc u).place) =
      Function.update (fun u => (f u).place) t pc.place := by
  funext u
  by_cases hu : u = t
  · rw [hu, Function.update_self, Function.update_self]
  · rw [Function.update_of_ne hu, Function.update_of_ne hu]

theorem update_bounded {f : Nat → Pc} {pc : Pc} (h : ∀ u, f u ≠ .outside → u < n) (ht : t < n) :
    ∀ u, Function.update f t pc u ≠ .outside → u < n := by
  intro u hu
  by_cases same : u = t
  · rwa [same]
  · exact h u (by simpa [same] using hu)

theorem update_expired {f : Nat → Pc} {pc : Pc} {clock : Nat}
    (h : ∀ u l, f u = .woken (some l) .etimedout → l.reached clock = true)
    (ht : ∀ l, pc = .woken (some l) .etimedout → l.reached clock = true) :
    ∀ u l, Function.update f t pc u = .woken (some l) .etimedout → l.reached clock = true := by
  intro u l hu
  by_cases same : u = t
  · subst same
    rw [Function.update_self] at hu
    exact ht l hu
  · rw [Function.update_of_ne same] at hu
    exact h u l hu

/-! ## Steps -/

/-- What a step of one thread does to the answers. -/
theorem returned_moved {m : Threads Pc} {pc : Pc} (count posted taken : Nat)
    (timeouts : List Timeout) (returns : List Return) (hpc : m.pc = Function.update s.m.pc t pc)
    (ht : t < n) (counts : Call → Code → Bool) :
    State.returned n ⟨m, count, s.clock, posted, taken, timeouts, returns⟩ counts +
        (if (s.m.pc t).returns counts then 1 else 0) +
        s.returns.countP (fun r => counts r.call r.result) =
      s.returned n counts + (if pc.returns counts then 1 else 0) +
        returns.countP (fun r => counts r.call r.result) := by
  have replaced := Lib.Counting.countP_replace List.nodup_range (Pc.returns counts) s.m.pc
    (List.mem_range.2 ht) pc
  have updated : (List.range n).countP (fun u => (m.pc u).returns counts) =
      (List.range n).countP (fun u => Pc.returns counts (if u = t then pc else s.m.pc u)) := by
    rw [hpc]
    simp only [Function.update_apply]
  unfold State.returned
  dsimp only
  rw [updated]
  omega

/-- One thread goes on: what it did and what it will return, with what returned, agree. -/
structure Reports (s : State) (t : Nat) (pc : Pc) (posted taken : Nat) (timeouts : List Timeout)
    (returns : List Return) : Prop where
  posted : posted + (if (s.m.pc t).returns Call.posts then 1 else 0) +
      s.returns.countP (fun r => Call.posts r.call r.result) =
    s.posted + (if pc.returns Call.posts then 1 else 0) +
      returns.countP (fun r => Call.posts r.call r.result)
  taken : taken + (if (s.m.pc t).returns Call.takes then 1 else 0) +
      s.returns.countP (fun r => Call.takes r.call r.result) =
    s.taken + (if pc.returns Call.takes then 1 else 0) +
      returns.countP (fun r => Call.takes r.call r.result)
  timeouts : ∀ timeoutMs, timeouts.countP (fun r => r.timeoutMs == timeoutMs) +
      (if (s.m.pc t).returns (Call.givesUp timeoutMs) then 1 else 0) +
      s.returns.countP (fun r => Call.givesUp timeoutMs r.call r.result) =
    s.timeouts.countP (fun r => r.timeoutMs == timeoutMs) +
      (if pc.returns (Call.givesUp timeoutMs) then 1 else 0) +
      returns.countP (fun r => Call.givesUp timeoutMs r.call r.result)

theorem Reported.moved (h : Reported n s) {m : Threads Pc} {pc : Pc} {count posted taken : Nat}
    {timeouts : List Timeout} {returns : List Return} (hpc : m.pc = Function.update s.m.pc t pc)
    (ht : t < n) (reports : Reports s t pc posted taken timeouts returns) :
    Reported n ⟨m, count, s.clock, posted, taken, timeouts, returns⟩ where
  posted := by
    have moved := returned_moved count posted taken timeouts returns hpc ht Call.posts
    have before := h.posted
    have here := reports.posted
    dsimp only
    omega
  taken := by
    have moved := returned_moved count posted taken timeouts returns hpc ht Call.takes
    have before := h.taken
    have here := reports.taken
    dsimp only
    omega
  timeouts timeoutMs := by
    have moved := returned_moved count posted taken timeouts returns hpc ht (Call.givesUp timeoutMs)
    have before := h.timeouts timeoutMs
    have here := reports.timeouts timeoutMs
    dsimp only
    omega

/-- None of the answers that are counted is on its way. -/
structure Silent (pc : Pc) : Prop where
  posted : pc.returns Call.posts = false
  taken : pc.returns Call.takes = false
  timeouts : ∀ timeoutMs, pc.returns (Call.givesUp timeoutMs) = false

theorem Silent.reports {pc : Pc} (before : Silent (s.m.pc t)) (after : Silent pc) :
    Reports s t pc s.posted s.taken s.timeouts s.returns where
  posted := by rw [before.posted, after.posted]
  taken := by rw [before.taken, after.taken]
  timeouts timeoutMs := by rw [before.timeouts, after.timeouts]

/-- A place other than the signal and the unlock. -/
theorem silent_plain {pc : Pc} (plain : ∀ counts, pc.returns counts = false) : Silent pc :=
  ⟨plain _, plain _, fun _ => plain _⟩

theorem silent_fails (call : Call) {result : Code} (bad : result ≠ .ok) (late : result ≠ .etimedout) :
    Silent (.unlock call result) := by
  constructor
  · simp [Pc.returns, Call.posts, bad]
  · simp [Pc.returns, Call.takes, bad]
  · simp [Pc.returns, Call.givesUp, late]

theorem goes_silent {pc pc' : Pc} (h : Goes s pc pc') : Silent pc ∧ Silent pc' := by
  cases h with
  | refuses | fails =>
    exact ⟨silent_plain fun _ => rfl, silent_fails _ (by simp) (by simp)⟩
  | calls | reads | wakes | expires =>
    exact ⟨silent_plain fun _ => rfl, silent_plain fun _ => rfl⟩

theorem enters_silent {pc pc' : Pc} (h : Enters pc pc') : Silent pc ∧ Silent pc' := by
  cases h with
  | begins call =>
    refine ⟨silent_plain fun _ => rfl, silent_plain fun _ => ?_⟩
    cases call <;> rfl
  | resumes => exact ⟨silent_plain fun _ => rfl, silent_plain fun _ => rfl⟩
  | fails => exact ⟨silent_plain fun _ => rfl, silent_fails _ (by simp) (by simp)⟩

/-- One thread goes on, and the tokens change as it tells. -/
theorem Inv.moved (i : Inv n value s) {m : Threads Pc} {pc : Pc} {count posted taken : Nat}
    {timeouts : List Timeout} {returns : List Return} (guarded : Guarded Pc.inside m)
    (hpc : m.pc = Function.update s.m.pc t pc) (ht : t < n)
    (late : ∀ l, pc = .woken (some l) .etimedout → l.reached s.clock = true)
    (enough : count ≠ 0 → pc.place ≠ .asleep ∧
      count + (if (s.m.pc t).place = .attentive then 1 else 0) ≤
        s.count + (if pc.place = .attentive then 1 else 0))
    (range : count < 2 ^ 32) (conserved : count + taken = value + posted)
    (inTime : ∀ r ∈ timeouts, r.readAt + r.timeoutMs.toNat * nsPerMs ≤ r.reportedAt)
    (reports : Reports s t pc posted taken timeouts returns) :
    Inv n value ⟨m, count, s.clock, posted, taken, timeouts, returns⟩ := by
  constructor
  · exact guarded
  · rw [hpc]
    exact update_bounded i.bounded ht
  · exact range
  · exact conserved
  · rw [hpc, update_place]
    exact i.served.move ht enough
  · rw [hpc]
    exact update_expired i.expired late
  · exact inTime
  · exact i.reported.moved hpc ht reports

theorem goes_inside {pc pc' : Pc} (h : Goes s pc pc') : pc'.inside = pc.inside := by
  cases h <;> rfl

theorem enters_inside {pc pc' : Pc} (h : Enters pc pc') : pc'.inside = true := by
  cases h with
  | begins call => cases call <;> rfl
  | resumes | fails => rfl

/-- A step that leaves the tokens alone, and after which the thread looks at them if it was
about to and there are any. -/
theorem Inv.kept (i : Inv n value s) {m : Threads Pc} {pc : Pc} {timeouts : List Timeout}
    {returns : List Return} (guarded : Guarded Pc.inside m)
    (hpc : m.pc = Function.update s.m.pc t pc) (ht : t < n)
    (late : ∀ l, pc = .woken (some l) .etimedout → l.reached s.clock = true)
    (attends : s.count ≠ 0 →
      pc.place ≠ .asleep ∧ ((s.m.pc t).place = .attentive → pc.place = .attentive))
    (inTime : ∀ r ∈ timeouts, r.readAt + r.timeoutMs.toNat * nsPerMs ≤ r.reportedAt)
    (reports : Reports s t pc s.posted s.taken timeouts returns) :
    Inv n value ⟨m, s.count, s.clock, s.posted, s.taken, timeouts, returns⟩ := by
  refine i.moved guarded hpc ht late (fun some => ?_) i.range i.conserved inTime reports
  obtain ⟨awake, attends⟩ := attends some
  refine ⟨awake, ?_⟩
  split
  · next before => rw [if_pos (attends before)]
  · omega

theorem goes_place {pc pc' : Pc} (h : Goes s pc pc') (some : s.count ≠ 0) :
    pc'.place ≠ .asleep ∧ (pc.place = .attentive → pc'.place = .attentive) := by
  cases h with
  | refuses none | fails limit none => exact absurd none some
  | calls | reads | wakes | expires => exact ⟨nofun, nofun⟩

theorem enters_place {pc pc' : Pc} (h : Enters pc pc') :
    pc'.place ≠ .asleep ∧ (pc.place = .attentive → pc'.place = .attentive) := by
  cases h with
  | begins call => cases call <;> exact ⟨nofun, nofun⟩
  | resumes => exact ⟨nofun, fun _ => rfl⟩
  | fails limit result bad =>
    refine ⟨nofun, fun attends => ?_⟩
    cases result with
    | ok => exact absurd rfl bad
    | einval | epipe | eagain | etimedout | error => cases attends

theorem enters_outside {pc pc' : Pc} (h : Enters pc pc') : pc ≠ .outside := by
  rintro rfl
  cases h

theorem enters_late {pc pc' : Pc} (h : Enters pc pc') (limit : Limit) (result : Code) :
    pc' ≠ .woken (some limit) result := by
  rintro rfl
  have := enters_inside h
  cases this

theorem pred_count (range : s.count < 2 ^ 32) (some : s.count ≠ 0) :
    u32 (s.count + (2 ^ 32 - 1)) = s.count - 1 := u32_pred (by omega) range.le

theorem takes_inside {pc : Pc} {call : Call} (h : Takes pc call) :
    pc.inside = true ∧ Silent pc ∧ call ≠ .post := by
  cases h with
  | look => exact ⟨rfl, silent_plain fun _ => rfl, by simp⟩
  | test limit =>
    refine ⟨rfl, silent_plain fun _ => rfl, ?_⟩
    cases limit <;> simp [waiting]

theorem takes_inv (i : Inv n value s) {call : Call} (h : Takes (s.m.pc t) call)
    (some : s.count ≠ 0) : Inv n value (s.take t call) := by
  have conserved := i.conserved
  have range := i.range
  have pred := pred_count i.range some
  obtain ⟨inside, silent, waits⟩ := takes_inside h
  have below : t < n := by
    apply i.bounded
    intro out
    rw [out] at inside
    cases inside
  unfold State.take
  refine i.moved (i.guarded.goto ?_) rfl below (by simp) (fun _ => ⟨by simp [Pc.place], ?_⟩) ?_ ?_
    i.inTime ⟨?_, ?_, fun timeoutMs => ?_⟩
  · rw [inside]
    rfl
  · rw [pred]
    split <;> split <;> omega
  · rw [pred]
    omega
  · rw [pred]
    omega
  · rw [silent.posted]
    simp [Pc.returns, Call.posts, waits]
  · rw [silent.taken]
    simp [Pc.returns, Call.takes, waits]
  · rw [silent.timeouts]
    simp [Pc.returns, Call.givesUp]

theorem adds_inv (i : Inv n value s) (h : s.m.pc t = .add) (room : s.count < 2 ^ 32 - 1) :
    Inv n value (s.add t) := by
  have conserved := i.conserved
  have next : u32 (s.count + 1) = s.count + 1 := u32_of_lt (by omega)
  unfold State.add
  have below : t < n := i.bounded t (by rw [h]; nofun)
  refine i.moved (i.guarded.goto ?_) rfl below nofun (fun _ => ⟨nofun, ?_⟩) ?_ ?_ i.inTime
    ⟨?_, ?_, fun timeoutMs => ?_⟩
  · rw [h]
    rfl
  · rw [next, h]
    simp [Pc.place]
  · rw [next]
    omega
  · rw [next]
    omega
  · simp [h, Pc.returns, Call.posts]
  · simp [h, Pc.returns, Call.takes]
  · simp [h, Pc.returns, Call.givesUp]

theorem notify_pc (s : State) (t : Nat) (woke : Option Nat) : (s.notify t woke).m.pc =
    Function.update (match woke with
      | none => s.m.pc
      | some u => Function.update s.m.pc u ((s.m.pc u).wake .ok)) t (.unlock .post .ok) := by
  unfold State.notify Threads.goto
  dsimp only
  congr 1
  funext v
  cases woke with
  | none => simp [Threads.wake]
  | some u =>
    by_cases hv : v = u
    · subst hv
      simp [Threads.wake]
    · simp [Threads.wake, Function.update_of_ne hv, Ne.symm hv]

theorem wake_inside (result : Code) (pc : Pc) : (pc.wake result).inside = pc.inside := by
  cases pc <;> rfl

/-- A signal wakes a thread for the token that it tells of, unless none sleeps. -/
theorem notify_served (i : Inv n value s) {woke : Option Nat} (h : s.m.pc t = .notify)
    (may : s.m.MayWake Pc.isBlocked n woke) :
    Served n (fun u => ((s.notify t woke).m.pc u).place) s.count := by
  have below : t < n := i.bounded t (by rw [h]; nofun)
  rw [notify_pc, update_place]
  cases woke with
  | none =>
    apply served_of_awake
    intro u hu asleep
    by_cases same : u = t
    · subst same
      rw [Function.update_self] at asleep
      cases asleep
    · rw [Function.update_of_ne same, place_blocked, may u hu] at asleep
      cases asleep
  | some u =>
    have blocked : (s.m.pc u).isBlocked = true := may
    have asleep := place_blocked.2 blocked
    have woken : ((s.m.pc u).wake .ok).place = .attentive := by
      cases hu : s.m.pc u with
      | blocked limit => rfl
      | outside | lock | reads | test | woken | look | add | notify | unlock =>
        rw [hu] at blocked
        cases blocked
    have hu : u < n := by
      apply i.bounded
      intro out
      rw [out] at blocked
      cases blocked
    dsimp only
    rw [update_place, woken]
    exact i.served.wake below hu (by rw [h]; rfl) asleep nofun

/-- Neither the signal nor a wake-up changes what will be returned. -/
theorem notify_returns (h : s.m.pc t = .notify) (woke : Option Nat)
    (counts : Call → Code → Bool) (u : Nat) :
    ((s.notify t woke).m.pc u).returns counts = (s.m.pc u).returns counts := by
  have woken (pc : Pc) : (pc.wake .ok).returns counts = pc.returns counts := by cases pc <;> rfl
  rw [notify_pc]
  by_cases same : u = t
  · rw [same, Function.update_self, h]
    rfl
  · rw [Function.update_of_ne same]
    cases woke with
    | none => rfl
    | some v =>
      dsimp only
      by_cases hv : u = v
      · rw [hv, Function.update_self, woken]
      · rw [Function.update_of_ne hv]

theorem notify_reported (i : Inv n value s) (h : s.m.pc t = .notify) (woke : Option Nat) :
    Reported n (s.notify t woke) := by
  have same (counts : Call → Code → Bool) :
      (s.notify t woke).returned n counts = s.returned n counts := by
    unfold State.returned
    simp only [notify_returns h woke counts]
    rfl
  refine ⟨?_, ?_, fun timeoutMs => ?_⟩
  · rw [same]
    exact i.reported.posted
  · rw [same]
    exact i.reported.taken
  · rw [same]
    exact i.reported.timeouts timeoutMs

theorem notify_inv (i : Inv n value s) {woke : Option Nat} (h : s.m.pc t = .notify)
    (may : s.m.MayWake Pc.isBlocked n woke) : Inv n value (s.notify t woke) := by
  have below : t < n := i.bounded t (by rw [h]; nofun)
  constructor
  · refine (i.guarded.wake (wake_inside .ok) _).goto ?_
    rw [Threads.wake_pc]
    split <;> rw [h] <;> rfl
  · rw [notify_pc]
    apply update_bounded ?_ below
    cases woke with
    | none => exact i.bounded
    | some u =>
      apply update_bounded i.bounded
      apply i.bounded
      intro out
      have blocked : (s.m.pc u).isBlocked = true := may
      rw [out] at blocked
      cases blocked
  · exact i.range
  · exact i.conserved
  · exact notify_served i h may
  · rw [notify_pc]
    refine update_expired ?_ (fun l timedOut => by cases timedOut)
    cases woke with
    | none => exact i.expired
    | some u =>
      apply update_expired i.expired
      intro l timedOut
      have blocked : (s.m.pc u).isBlocked = true := may
      cases hu : s.m.pc u with
      | blocked limit =>
        rw [hu] at timedOut
        cases timedOut
      | outside | lock | reads | test | woken | look | add | notify | unlock =>
        rw [hu] at blocked
        cases blocked
  · exact i.inTime
  · exact notify_reported i h woke

theorem moves_inv (i : Inv n value s) (h : Moves n s l s') (room : NoWrap s l) :
    Inv n value s' := by
  cases h with
  | tick ns =>
    have later (l : Limit) (reached : l.reached s.clock = true) :
        l.reached (s.clock + ns) = true := by
      unfold Limit.reached at reached ⊢
      rw [decide_eq_true_iff] at reached ⊢
      omega
    exact ⟨i.guarded, i.bounded, i.range, i.conserved, i.served,
      fun t l woken => later l (i.expired t l woken), i.inTime,
      ⟨i.reported.posted, i.reported.taken, i.reported.timeouts⟩⟩
  | goes t pc ht go =>
    have below : t < n := by
      by_cases out : s.m.pc t = .outside
      · exact ht out
      · exact i.bounded t out
    obtain ⟨before, after⟩ := goes_silent go
    refine i.kept (i.guarded.goto (goes_inside go)) rfl below ?_ (goes_place go) i.inTime
      (before.reports after)
    rintro l rfl
    generalize s.m.pc t = pc at go
    cases go with
    | expires l reached => exact reached
  | enters t pc free enter =>
    have below : t < n := i.bounded t (enters_outside enter)
    obtain ⟨before, after⟩ := enters_silent enter
    refine i.kept (i.guarded.enter free (enters_inside enter)) rfl below ?_
      (fun _ => enters_place enter) i.inTime (before.reports after)
    exact fun l woken => absurd woken (enters_late enter l _)
  | givesUp t limit free woken =>
    have below : t < n := i.bounded t (by rw [woken]; nofun)
    have reached := i.expired t limit woken
    refine i.kept (i.guarded.enter free rfl) rfl below nofun (fun _ => ⟨nofun, ?_⟩) ?_
      ⟨?_, ?_, fun timeoutMs => ?_⟩
    · rw [woken]
      nofun
    · apply List.forall_mem_cons.2 ⟨?_, i.inTime⟩
      have exact := limit.exact
      unfold Limit.reached at reached
      rw [decide_eq_true_iff] at reached
      dsimp only
      omega
    · simp [woken, Pc.returns, Call.posts]
    · simp [woken, Pc.returns, Call.takes]
    · simp [woken, Pc.returns, Call.givesUp, List.countP_cons]
  | blocks t limit test none =>
    have below : t < n := i.bounded t (by rw [test]; nofun)
    have before : Silent (s.m.pc t) := by
      rw [test]
      exact silent_plain fun _ => rfl
    refine i.kept (i.guarded.leave (by rw [test]; rfl) rfl) rfl below nofun ?_ i.inTime
      (before.reports (silent_plain fun _ => rfl))
    exact fun some => absurd none some
  | takes t call about some => exact takes_inv i about some
  | adds t woke add => exact adds_inv i add (room add)
  | notifies t woke notify may => exact notify_inv i notify may
  | unlocks t call result unlock =>
    have below : t < n := i.bounded t (by rw [unlock]; simp)
    refine i.kept (i.guarded.leave (by rw [unlock]; rfl) rfl) rfl below (by simp) ?_ i.inTime
      ⟨?_, ?_, fun timeoutMs => ?_⟩
    · rw [unlock]
      exact fun _ => ⟨by simp [Pc.place], by simp [Pc.place]⟩
    -- The answer goes from the thread to the record.
    · simp only [unlock, Pc.returns, List.countP_cons, Bool.false_eq_true, if_false]
      omega
    · simp only [unlock, Pc.returns, List.countP_cons, Bool.false_eq_true, if_false]
      omega
    · simp only [unlock, Pc.returns, List.countP_cons, Bool.false_eq_true, if_false]
      omega

/-! ## Runs -/

/-- A post that wraps `count_` around loses its tokens. -/
theorem noWrap_of_good (i : Inv n value s) (h : step n s l = some s') (good : Good n value s') :
    NoWrap s l := by
  cases l with
  | turn t woke =>
    intro add
    have added : s' = s.add t := by
      simp only [step, turn, add, Option.some.injEq] at h
      exact h.symm
    have before := i.conserved
    have range := i.range
    have after := good.conserved
    rw [added] at after
    simp only [State.add] at after
    by_contra full
    have most : s.count = 2 ^ 32 - 1 := by omega
    rw [most] at after before
    have wrapped : u32 (2 ^ 32 - 1 + 1) = 0 := by decide
    rw [wrapped] at after
    omega
  | tick | call | fail | wake | expire => trivial

theorem init_inv (n : Nat) (value : Fin (2 ^ 32)) (clock : Nat) :
    Inv n value (init value clock) where
  guarded := guarded_idle rfl
  bounded t out := absurd rfl out
  range := value.isLt
  conserved := rfl
  served := served_of_awake (fun _ _ => nofun)
  expired t l woken := by cases woken
  inTime := nofun
  reported := by
    constructor <;> simp [init, State.returned, Threads.idle, Pc.returns]

/-- **The semaphore counts its tokens and wakes a thread for each.** From any number of tokens on
and over every run, the tokens are those it began with and those posted, less those taken, as the
calls have returned it or are about to; while the mutex is free and a thread is blocked, each token
has a woken thread on its way to it; and no wait times out before the clock has passed its timeout.
All this holds in exactly the runs that never post to a semaphore of `UINT32_MAX` tokens. -/
theorem sem_runs (n : Nat) (value : Fin (2 ^ 32)) (clock : Nat) (ls : List Label) :
    Throughout (step n) (Good n value) (init value clock) ls ↔
      EachStep (step n) NoWrap (init value clock) ls :=
  throughout_iff_eachStep (fun _ _ _ i room h => moves_inv i (step_moves h) room)
    (fun _ i => i.good) (fun _ _ _ i h good => noWrap_of_good i h good)
    (init_inv n value clock) ls

end Coter.Sem
