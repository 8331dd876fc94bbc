import Coter.Lib.Lts
import Coter.Sync.ShutdownSignal

/-!
# Runs of the shutdown token

* `Moves`: what a step can do;
* `Phase`: before, during and after the one cancel that wins;
* `Knows`: what a thread may rely on from what it has read so far;
* `token_runs`: over every run, one cancel wins and runs the callback once, nobody
  sleeps over the cancellation, and the waits keep to their deadlines.
-/

namespace Coter.ShutdownSignal

open Lib.Monitor Lib.Lts
open Cond (int64Max)

/-! ## Deadlines -/

theorem deadlineAt_range {timeoutMs : Int} (now : Nat) (h : 0 ≤ timeoutMs) :
    0 ≤ deadlineAt timeoutMs now ∧ deadlineAt timeoutMs now ≤ int64Max := by
  unfold deadlineAt int64Max
  split <;> omega

theorem timeoutDeadline_range (timeoutMs : Int) (now : Nat) :
    -1 ≤ timeoutDeadline timeoutMs now ∧ timeoutDeadline timeoutMs now ≤ int64Max := by
  unfold timeoutDeadline
  split
  · decide
  · rename_i h
    have := deadlineAt_range now (Int.not_lt.1 h)
    omega

theorem i64_diff {a b : Int} (ha : 0 ≤ a) (ha' : a ≤ int64Max) (hb : 0 ≤ b)
    (hb' : b ≤ int64Max) : i64 (a - b) = a - b := by
  unfold int64Max at ha' hb'
  exact i64_of_range (by omega) (by omega)

theorem expired_iff {deadline : Int} {now : Nat} (hd : deadline ≤ int64Max)
    (hn : (now : Int) ≤ int64Max) :
    expired deadline now = true ↔ 0 ≤ deadline ∧ deadline ≤ now := by
  unfold expired
  by_cases pos : 0 ≤ deadline
  · rw [if_pos pos, i64_diff (Int.natCast_nonneg now) hn pos hd, decide_eq_true_iff]
    omega
  · simp [pos]

theorem remaining_eq {deadline : Int} {now : Nat} (pos : 0 ≤ deadline)
    (hd : deadline ≤ int64Max) (hn : (now : Int) ≤ int64Max) :
    remaining deadline now = max 0 (deadline - now) := by
  unfold remaining
  rw [if_neg (Int.not_lt.2 pos), i64_diff pos hd (Int.natCast_nonneg now) hn]
  dsimp only
  split <;> omega

theorem remaining_none {deadline : Int} {now : Nat} (h : deadline < 0) :
    remaining deadline now = -1 := by
  unfold remaining
  rw [if_pos h]

theorem Call.userRemain_eq {c : Call} {now : Nat} (h : 0 ≤ c.timeoutMs)
    (hn : (now : Int) ≤ int64Max) :
    c.userRemain now = c.userDeadline - now := by
  have range : 0 ≤ c.userDeadline ∧ c.userDeadline ≤ int64Max := by
    unfold Call.userDeadline
    rw [if_pos h]
    exact deadlineAt_range c.calledAt h
  unfold Call.userRemain
  rw [if_pos h, i64_diff range.1 range.2 (Int.natCast_nonneg now) hn]

theorem Call.late_iff {c : Call} {now : Nat} (hn : (now : Int) ≤ int64Max) :
    c.late now = true ↔ 0 ≤ c.timeoutMs ∧ c.userDeadline ≤ now := by
  unfold Call.late
  rw [decide_eq_true_iff]
  by_cases h : 0 ≤ c.timeoutMs
  · rw [c.userRemain_eq h hn]
    omega
  · simp [h]

/-! ## What a step can do -/

/-- The moves of a thread that change nothing else. -/
inductive Goes (s : State) : Pc → Pc → Prop
  | cancel : Goes s .outside .exchange
  | wait (call : Call) : Goes s .outside (.waitLock call)
  | loses (h : s.cancelled = true) : Goes s .exchange (.cancels false)
  | sees (call : Call) (h : s.cancelled = true) : Goes s (.look call) (.final call)
  | looks (call : Call) (h : s.cancelled = false) : Goes s (.look call) (.lookClock call)
  | expires (call : Call) (h : expired s.deadline s.clock = true) :
      Goes s (.lookClock call) (.final call)
  | goesOn (call : Call) (h : expired s.deadline s.clock = false) :
      Goes s (.lookClock call) (.remain call)
  | seesAgain (call : Call) (h : s.cancelled = true) : Goes s (.remain call) (.final call)
  | reads (call : Call) (h : s.cancelled = false) : Goes s (.remain call) (.remainClock call)
  | nothingLeft (call : Call) (h : remaining s.deadline s.clock = 0) :
      Goes s (.remainClock call) (.final call)
  | left (call : Call) (h : remaining s.deadline s.clock ≠ 0) :
      Goes s (.remainClock call) (.user call (remaining s.deadline s.clock) s.clock)
  | late (call : Call) (remain : Int) (readAt : Nat) (h : call.late s.clock = true) :
      Goes s (.user call remain readAt) (.final call)
  | ends (call : Call) (h : s.cancelled = true) :
      Goes s (.final call) (.unlock call s.done true)
  | checks (call : Call) (h : s.cancelled = false) :
      Goes s (.final call) (.finalClock call s.done)
  | decides (call : Call) (before : Bool) :
      Goes s (.finalClock call before) (.unlock call before (expired s.deadline s.clock))
  | wakes (call : Call) : Goes s (.blocked call) (.woken call)

/-- The first step under the mutex. -/
inductive Enters : Pc → Pc → Prop
  | cancel : Enters .cancelLock .broadcast
  | wait (call : Call) : Enters (.waitLock call) (.look call)
  | resume (call : Call) : Enters (.woken call) (.look call)

inductive Moves (s : State) : State → Prop
  | tick (ms : Nat) (h : s.clock + ms ≤ int64Max) : Moves s { s with clock := s.clock + ms }
  | goes (t : Nat) (pc : Pc) (h : Goes s (s.m.pc t) pc) : Moves s (s.goto t pc)
  | enters (t : Nat) (pc : Pc) (free : s.m.owner = none) (h : Enters (s.m.pc t) pc) :
      Moves s { s with m := s.m.enter t pc }
  | wins (t : Nat) (h : s.m.pc t = .exchange) (first : s.cancelled = false) :
      Moves s { s.goto t .cancelLock with cancelled := true, won := t :: s.won }
  | tells (t : Nat) (h : s.m.pc t = .broadcast) : Moves s (s.broadcast t)
  | leaves (t : Nat) (h : s.m.pc t = .cancelUnlock) :
      Moves s { s with m := s.m.leave t .callback }
  | calls (t : Nat) (h : s.m.pc t = .callback) : Moves s (s.callback t)
  | cancels (t : Nat) (first : Bool) (h : s.m.pc t = .cancels first) : Moves s (s.cancel t first)
  | sleeps (t : Nat) (call : Call) (remain : Int) (readAt : Nat)
      (h : s.m.pc t = .user call remain readAt) (early : call.late s.clock = false) :
      Moves s { s with
        m := s.m.leave t (.blocked call)
        inner := ⟨call, toWait remain (call.userRemain s.clock), readAt, s.clock⟩ :: s.inner }
  | returns (t : Nat) (call : Call) (before result : Bool)
      (h : s.m.pc t = .unlock call before result) : Moves s (s.wait t call before result)

section Moves

variable {s s' : State} {t : Nat}

theorem lock_moves {pc : Pc} (hstep : s.lock t pc = some s') (h : Enters (s.m.pc t) pc) :
    Moves s s' := by
  simp only [State.lock, Option.ite_none_right_eq_some, Option.some.injEq] at hstep
  obtain ⟨free, rfl⟩ := hstep
  exact .enters t pc free h

theorem exchange_moves (h : s.m.pc t = .exchange) : Moves s (s.exchange t) := by
  unfold State.exchange
  cases hc : s.cancelled with
  | true => exact .goes t _ (h ▸ .loses hc)
  | false => exact .wins t h hc

theorem user_moves {call : Call} {remain : Int} {readAt : Nat}
    (h : s.m.pc t = .user call remain readAt) : Moves s (s.user t call remain readAt) := by
  unfold State.user
  cases late : call.late s.clock with
  | true => exact .goes t _ (h ▸ .late call remain readAt late)
  | false => exact .sleeps t call remain readAt h late

theorem turn_moves (hstep : turn s t = some s') : Moves s s' := by
  unfold turn at hstep
  cases hp : s.m.pc t with
  | outside | blocked =>
    rw [hp] at hstep
    cases hstep
  | exchange =>
    rw [hp] at hstep
    cases hstep
    exact exchange_moves hp
  | cancelLock =>
    rw [hp] at hstep
    exact lock_moves hstep (hp ▸ .cancel)
  | broadcast =>
    rw [hp] at hstep
    cases hstep
    exact .tells t hp
  | cancelUnlock =>
    rw [hp] at hstep
    cases hstep
    exact .leaves t hp
  | callback =>
    rw [hp] at hstep
    cases hstep
    exact .calls t hp
  | cancels first =>
    rw [hp] at hstep
    cases hstep
    exact .cancels t first hp
  | waitLock call =>
    rw [hp] at hstep
    exact lock_moves hstep (hp ▸ .wait call)
  | woken call =>
    rw [hp] at hstep
    exact lock_moves hstep (hp ▸ .resume call)
  | look call =>
    rw [hp] at hstep
    cases hstep
    refine .goes t _ (hp ▸ ?_)
    cases hc : s.cancelled with
    | true => exact .sees call hc
    | false => exact .looks call hc
  | lookClock call =>
    rw [hp] at hstep
    cases hstep
    refine .goes t _ (hp ▸ ?_)
    cases he : expired s.deadline s.clock with
    | true => exact .expires call he
    | false => exact .goesOn call he
  | remain call =>
    rw [hp] at hstep
    cases hstep
    refine .goes t _ (hp ▸ ?_)
    cases hc : s.cancelled with
    | true => exact .seesAgain call hc
    | false => exact .reads call hc
  | remainClock call =>
    rw [hp] at hstep
    cases hstep
    refine .goes t _ (hp ▸ ?_)
    split
    · rename_i zero
      exact .nothingLeft call zero
    · rename_i more
      exact .left call more
  | user call remain readAt =>
    rw [hp] at hstep
    cases hstep
    exact user_moves hp
  | final call =>
    rw [hp] at hstep
    cases hstep
    refine .goes t _ (hp ▸ ?_)
    cases hc : s.cancelled with
    | true => exact .ends call hc
    | false => exact .checks call hc
  | finalClock call before =>
    rw [hp] at hstep
    cases hstep
    exact .goes t _ (hp ▸ .decides call before)
  | unlock call before result =>
    rw [hp] at hstep
    cases hstep
    exact .returns t call before result hp

theorem step_moves {l : Label} (hstep : step s l = some s') : Moves s s' := by
  cases l with
  | tick ms =>
    simp only [step, Option.ite_none_right_eq_some, Option.some.injEq] at hstep
    obtain ⟨small, rfl⟩ := hstep
    exact .tick ms small
  | cancel t =>
    simp only [step, Option.ite_none_right_eq_some, Option.some.injEq] at hstep
    obtain ⟨out, rfl⟩ := hstep
    exact .goes t _ (out ▸ .cancel)
  | wait t timeoutMs =>
    simp only [step, Option.ite_none_right_eq_some, Option.some.injEq] at hstep
    obtain ⟨out, rfl⟩ := hstep
    exact .goes t _ (out ▸ .wait _)
  | turn t => exact turn_moves hstep
  | wake t =>
    simp only [step, Option.ite_none_right_eq_some, Option.some.injEq] at hstep
    obtain ⟨hb, rfl⟩ := hstep
    refine .goes t _ ?_
    cases hp : s.m.pc t with
    | blocked call => exact .wakes call
    | _ =>
      rw [hp] at hb
      cases hb

end Moves

/-! ## The mutex -/

theorem Goes.inside {s : State} {a b : Pc} (h : Goes s a b) : b.inside = a.inside := by
  cases h <;> rfl

theorem Enters.inside {a b : Pc} (h : Enters a b) : b.inside = true := by
  cases h <;> rfl

theorem wake_inside (pc : Pc) : pc.wake.inside = pc.inside := by
  cases pc <;> rfl

theorem moves_guarded {s s' : State} (h : Guarded Pc.inside s.m) (hm : Moves s s') :
    Guarded Pc.inside s'.m := by
  cases hm with
  | tick ms => exact h
  | goes t pc hpc => exact h.goto hpc.inside
  | enters t pc free hpc => exact h.enter free hpc.inside
  | wins t hp | calls t hp | cancels t first hp => exact h.goto (by rw [hp]; rfl)
  | leaves t hp | sleeps t call remain readAt hp | returns t call before result hp =>
    exact h.leave (by rw [hp]; rfl) rfl
  | tells t hp =>
    refine (h.wake wake_inside _).goto ?_
    rw [Threads.wake_pc, hp]
    rfl

/-! ## The cancel that wins -/

/-- In `ct_shutdown_token_cancel` after winning the exchange. -/
def Pc.won : Pc → Bool
  | .cancelLock | .broadcast | .cancelUnlock | .callback | .cancels true => true
  | _ => false

/-- The winner has done its broadcast. -/
def Pc.hasTold : Pc → Bool
  | .cancelUnlock | .callback | .cancels _ => true
  | _ => false

/-- The winner has run the callback. -/
def Pc.hasCalled : Pc → Bool
  | .cancels _ => true
  | _ => false

/-- How often the callback has run in the end. -/
def State.calls (s : State) : Nat := if s.cb then 1 else 0

/-- Nobody has cancelled the token. -/
structure Open (s : State) : Prop where
  cancelled : s.cancelled = false
  won : s.won = []
  told : s.told = false
  callbacks : s.callbacks = 0
  cancels : s.cancels = []
  nobody : ∀ t, (s.m.pc t).won = false

/-- The thread `t` has won and has not returned yet. -/
structure Winning (s : State) (t : Nat) : Prop where
  cancelled : s.cancelled = true
  won : s.won = [t]
  told : s.told = (s.m.pc t).hasTold
  callbacks : s.callbacks = if (s.m.pc t).hasCalled then s.calls else 0
  cancels : s.cancels.count true = 0
  winner : (s.m.pc t).won = true
  others : ∀ u, u ≠ t → (s.m.pc u).won = false

/-- The winner has returned. -/
structure Over (s : State) : Prop where
  cancelled : s.cancelled = true
  won : s.won.length = 1
  told : s.told = true
  callbacks : s.callbacks = s.calls
  cancels : s.cancels.count true = 1
  nobody : ∀ t, (s.m.pc t).won = false

inductive Phase (s : State) : Prop
  | isOpen (h : Open s) : Phase s
  | winning (t : Nat) (h : Winning s t) : Phase s
  | isOver (h : Over s) : Phase s

theorem Goes.won {s : State} {a b : Pc} (h : Goes s a b) : a.won = false ∧ b.won = false := by
  cases h <;> exact ⟨rfl, rfl⟩

/-- A thread that is not the winner moves, and nothing that the phases speak of changes. -/
theorem Phase.frame {s s' : State} {t : Nat} {pc : Pc} (h : Phase s)
    (hpc : ∀ u, s'.m.pc u = if u = t then pc else s.m.pc u) (hc : s'.cancelled = s.cancelled)
    (hw : s'.won = s.won) (ht : s'.told = s.told) (hb : s'.callbacks = s.callbacks)
    (hcb : s'.cb = s.cb) (hr : s'.cancels.count true = s.cancels.count true)
    (hnil : s.cancels = [] → s'.cancels = [] ∨ s.cancelled = true)
    (before : (s.m.pc t).won = false) (after : pc.won = false) : Phase s' := by
  have calls : s'.calls = s.calls := by
    unfold State.calls
    rw [hcb]
  have outside (u : Nat) (hu : (s.m.pc u).won = false) : (s'.m.pc u).won = false := by
    rw [hpc]
    split
    · exact after
    · exact hu
  cases h with
  | isOpen o =>
    refine .isOpen ⟨hc ▸ o.cancelled, hw ▸ o.won, ht ▸ o.told, hb ▸ o.callbacks, ?_,
      fun u => outside u (o.nobody u)⟩
    cases hnil o.cancels with
    | inl h => exact h
    | inr h =>
      rw [o.cancelled] at h
      cases h
  | winning w o =>
    have other : w ≠ t := by
      rintro rfl
      rw [o.winner] at before
      cases before
    have same : s'.m.pc w = s.m.pc w := by rw [hpc, if_neg other]
    refine .winning w ⟨hc ▸ o.cancelled, hw ▸ o.won, ?_, ?_, hr ▸ o.cancels, ?_,
      fun u hu => outside u (o.others u hu)⟩
    · rw [ht, same, o.told]
    · rw [hb, same, calls, o.callbacks]
    · rw [same, o.winner]
  | isOver o =>
    exact .isOver ⟨hc ▸ o.cancelled, hw ▸ o.won, ht ▸ o.told, by rw [hb, calls, o.callbacks],
      hr ▸ o.cancels, fun u => outside u (o.nobody u)⟩

/-- Only the winner is in the part of the code that only the winner gets to. -/
theorem Phase.winner {s : State} {t : Nat} (h : Phase s) (ht : (s.m.pc t).won = true) :
    Winning s t := by
  cases h with
  | isOpen o =>
    rw [o.nobody t] at ht
    cases ht
  | winning w o =>
    by_cases same : t = w
    · rwa [same]
    · rw [o.others t same] at ht
      cases ht
  | isOver o =>
    rw [o.nobody t] at ht
    cases ht

/-- The winner moves on. -/
theorem Winning.frame {s s' : State} {t : Nat} (h : Winning s t) (pc : Pc)
    (hpc : ∀ u, u ≠ t → (s'.m.pc u).won = (s.m.pc u).won) (hself : s'.m.pc t = pc)
    (hc : s'.cancelled = s.cancelled) (hw : s'.won = s.won) (ht : s'.told = pc.hasTold)
    (hb : s'.callbacks = if pc.hasCalled then s'.calls else 0) (hr : s'.cancels = s.cancels)
    (after : pc.won = true) : Phase s' := by
  refine .winning t ⟨hc ▸ h.cancelled, hw ▸ h.won, ?_, ?_, hr ▸ h.cancels, ?_, ?_⟩
  · rw [hself, ht]
  · rw [hself, hb]
  · rw [hself, after]
  · intro u hu
    rw [hpc u hu, h.others u hu]

theorem tick_phase {s : State} (h : Phase s) (clock : Nat) : Phase { s with clock } := by
  cases h with
  | isOpen o => exact .isOpen ⟨o.cancelled, o.won, o.told, o.callbacks, o.cancels, o.nobody⟩
  | winning t o =>
    exact .winning t ⟨o.cancelled, o.won, o.told, o.callbacks, o.cancels, o.winner, o.others⟩
  | isOver o => exact .isOver ⟨o.cancelled, o.won, o.told, o.callbacks, o.cancels, o.nobody⟩

theorem wins_phase {s : State} {t : Nat} (h : Phase s) (first : s.cancelled = false) :
    Phase { s.goto t .cancelLock with cancelled := true, won := t :: s.won } := by
  cases h with
  | isOpen o =>
    refine .winning t ⟨rfl, by rw [o.won], ?_, ?_, ?_, ?_, fun u hu => ?_⟩
    · simp [State.goto, Threads.goto_pc, o.told, Pc.hasTold]
    · simp [State.goto, Threads.goto_pc, o.callbacks, Pc.hasCalled]
    · simp [State.goto, o.cancels]
    · simp [State.goto, Threads.goto_pc, Pc.won]
    · simp [State.goto, Threads.goto_pc, hu, o.nobody u]
  | winning w o =>
    rw [o.cancelled] at first
    cases first
  | isOver o =>
    rw [o.cancelled] at first
    cases first

theorem enters_phase {s : State} {t : Nat} {pc : Pc} (h : Phase s) (hpc : Enters (s.m.pc t) pc) :
    Phase { s with m := s.m.enter t pc } := by
  have moved (u : Nat) : (s.m.enter t pc).pc u = if u = t then pc else s.m.pc u :=
    Threads.enter_pc ..
  generalize hfrom : s.m.pc t = before at hpc
  cases hpc with
  | cancel =>
    have w : Winning s t := h.winner (by rw [hfrom]; rfl)
    have told := w.told
    have callbacks := w.callbacks
    rw [hfrom] at told callbacks
    refine w.frame .broadcast (fun u hu => ?_) ?_ rfl rfl told callbacks rfl rfl
    · rw [moved, if_neg hu]
    · rw [moved, if_pos rfl]
  | wait | resume =>
    exact h.frame moved rfl rfl rfl rfl rfl rfl .inl (by rw [hfrom]; rfl) rfl

theorem tells_phase {s : State} {t : Nat} (h : Phase s) (hp : s.m.pc t = .broadcast) :
    Phase (s.broadcast t) := by
  have w : Winning s t := h.winner (by rw [hp]; rfl)
  have callbacks := w.callbacks
  rw [hp] at callbacks
  refine w.frame .cancelUnlock (fun u hu => ?_) ?_ rfl rfl rfl callbacks rfl rfl
  · simp only [State.broadcast, Threads.goto_pc, hu, if_false, Threads.wake_pc, if_true]
    cases s.m.pc u <;> rfl
  · simp [State.broadcast, Threads.goto_pc]

theorem leaves_phase {s : State} {t : Nat} (h : Phase s) (hp : s.m.pc t = .cancelUnlock) :
    Phase { s with m := s.m.leave t .callback } := by
  have w : Winning s t := h.winner (by rw [hp]; rfl)
  have told := w.told
  have callbacks := w.callbacks
  rw [hp] at told callbacks
  refine w.frame .callback (fun u hu => ?_) ?_ rfl rfl told callbacks rfl rfl
  · rw [Threads.leave_pc, if_neg hu]
  · rw [Threads.leave_pc, if_pos rfl]

theorem calls_phase {s : State} {t : Nat} (h : Phase s) (hp : s.m.pc t = .callback) :
    Phase (s.callback t) := by
  have w : Winning s t := h.winner (by rw [hp]; rfl)
  have told := w.told
  have callbacks : s.callbacks = 0 := by
    have := w.callbacks
    rwa [hp] at this
  rw [hp] at told
  refine w.frame (.cancels true) (fun u hu => ?_) ?_ rfl rfl told ?_ rfl rfl
  · simp [State.callback, State.goto, Threads.goto_pc, hu]
  · simp [State.callback, State.goto, Threads.goto_pc]
  · simp only [State.callback, callbacks, State.calls, Pc.hasCalled, if_true]
    rfl

theorem cancels_phase {s : State} {t : Nat} {first : Bool} (h : Phase s)
    (hp : s.m.pc t = .cancels first) (lost : first = false → s.cancelled = true) :
    Phase (s.cancel t first) := by
  have moved (u : Nat) : (s.cancel t first).m.pc u = if u = t then .outside else s.m.pc u :=
    Threads.goto_pc ..
  cases first with
  | false =>
    refine h.frame moved rfl rfl rfl rfl rfl ?_ (fun _ => .inr (lost rfl)) (by rw [hp]; rfl) rfl
    simp [State.cancel]
  | true =>
    have w : Winning s t := h.winner (by rw [hp]; rfl)
    have told := w.told
    have callbacks := w.callbacks
    rw [hp] at told callbacks
    refine .isOver ⟨w.cancelled, ?_, told, callbacks, ?_, fun u => ?_⟩
    · rw [show (s.cancel t true).won = s.won from rfl, w.won]
      rfl
    · simp [State.cancel, State.goto, w.cancels]
    · rw [moved]
      split
      · rfl
      · rename_i hu
        exact w.others u hu

theorem moves_phase {s s' : State} (h : Phase s)
    (lost : ∀ t, s.m.pc t = .cancels false → s.cancelled = true) (hm : Moves s s') :
    Phase s' := by
  cases hm with
  | tick ms => exact tick_phase h _
  | goes t pc hpc =>
    exact h.frame (fun u => Threads.goto_pc ..) rfl rfl rfl rfl rfl rfl .inl hpc.won.1 hpc.won.2
  | enters t pc free hpc => exact enters_phase h hpc
  | wins t hp first => exact wins_phase h first
  | tells t hp => exact tells_phase h hp
  | leaves t hp => exact leaves_phase h hp
  | calls t hp => exact calls_phase h hp
  | cancels t first hp =>
    refine cancels_phase h hp (fun hf => lost t ?_)
    rw [hp, hf]
  | sleeps t call remain readAt hp | returns t call before result hp =>
    exact h.frame (fun u => Threads.leave_pc ..) rfl rfl rfl rfl rfl rfl .inl (by rw [hp]; rfl) rfl

/-! ## Nobody sleeps over the cancellation -/

/-- The thread blocks, or is on its way there and has seen the flag unset. -/
def Pc.dozes : Pc → Bool
  | .lookClock _ | .remain _ | .remainClock _ | .user .. | .blocked _ => true
  | _ => false

def Awake (s : State) : Prop := s.told = true → ∀ t, (s.m.pc t).dozes = false

theorem Phase.told {s : State} (h : Phase s) (told : s.told = true) : s.cancelled = true := by
  cases h with
  | isOpen o =>
    rw [o.told] at told
    cases told
  | winning t o => exact o.cancelled
  | isOver o => exact o.cancelled

theorem Goes.awake {s : State} {a b : Pc} (h : Goes s a b) (cancelled : s.cancelled = true)
    (ha : a.dozes = false) : b.dozes = false := by
  cases h with
  | looks call unset =>
    rw [cancelled] at unset
    cases unset
  | goesOn | reads | left => cases ha
  | _ => rfl

theorem Enters.awake {a b : Pc} (h : Enters a b) : b.dozes = false := by
  cases h <;> rfl

/-- Whoever is outside the mutex and not blocked does not doze. -/
theorem wake_awake {pc : Pc} (h : pc.inside = false) : pc.wake.dozes = false := by
  cases pc <;> first | rfl | cases h

theorem moves_awake {s s' : State} (hg : Guarded Pc.inside s.m) (hph : Phase s) (h : Awake s)
    (hm : Moves s s') : Awake s' := by
  have step (t : Nat) (pc : Pc) (told : s.told = true) (hpc : pc.dozes = false) (u : Nat) :
      (if u = t then pc else s.m.pc u).dozes = false := by
    split
    · exact hpc
    · exact h told u
  cases hm with
  | tick ms => exact h
  | goes t pc hpc =>
    intro told u
    rw [State.goto, Threads.goto_pc]
    exact step t pc told (hpc.awake (hph.told told) (h told t)) u
  | enters t pc free hpc =>
    intro told u
    rw [Threads.enter_pc]
    exact step t pc told hpc.awake u
  | wins t hp first =>
    intro told
    have := hph.told told
    rw [first] at this
    cases this
  | tells t hp =>
    intro _ u
    simp only [State.broadcast, Threads.goto_pc, Threads.wake_pc, if_true]
    split
    · rfl
    · rename_i other
      apply wake_awake
      by_contra hin
      exact other (hg.unique (by rw [hp]; rfl) (by simpa using hin))
  | leaves t hp =>
    intro told u
    rw [Threads.leave_pc]
    exact step t _ told rfl u
  | calls t hp | cancels t first hp =>
    intro told u
    show ((s.m.goto t _).pc u).dozes = false
    rw [Threads.goto_pc]
    exact step t _ told rfl u
  | sleeps t call remain readAt hp =>
    intro told
    have := h told t
    rw [hp] at this
    cases this
  | returns t call before result hp =>
    intro told u
    show ((s.m.leave t _).pc u).dozes = false
    rw [Threads.leave_pc]
    exact step t _ told rfl u

/-! ## What a wait knows -/

/-- Times are those of `ct_time64_t`. -/
structure InRange (s : State) : Prop where
  deadline : -1 ≤ s.deadline ∧ s.deadline ≤ int64Max
  clock : s.clock ≤ int64Max

/-- What a thread may rely on. -/
def Knows (s : State) : Pc → Prop
  | .cancels false => s.cancelled = true
  | .user _ remain readAt =>
    remain = remaining s.deadline readAt ∧ remain ≠ 0 ∧ (readAt : Int) ≤ int64Max
  | .final call => s.done = true ∨ call.late s.clock = true
  | .finalClock call before =>
    (before = true → expired s.deadline s.clock = true) ∧
      (expired s.deadline s.clock = true ∨ call.late s.clock = true)
  | .unlock call before result =>
    (before = true → result = true) ∧ (result = true → s.done = true) ∧
      (result = false → call.late s.clock = true)
  | _ => True

/-- The token is not revived and the clock does not go back. -/
structure Later (s s' : State) : Prop where
  cancelled : s.cancelled = true → s'.cancelled = true
  deadline : s'.deadline = s.deadline
  clock : s.clock ≤ s'.clock
  range : s'.clock ≤ int64Max

section Later

variable {s s' : State}

theorem Later.expired (h : Later s s') (hr : InRange s)
    (he : expired s.deadline s.clock = true) : expired s'.deadline s'.clock = true := by
  have := h.clock
  rw [expired_iff hr.deadline.2 hr.clock] at he
  rw [h.deadline, expired_iff hr.deadline.2 h.range]
  omega

theorem Later.late (h : Later s s') (hr : InRange s) {c : Call}
    (hl : c.late s.clock = true) : c.late s'.clock = true := by
  have := h.clock
  rw [c.late_iff hr.clock] at hl
  rw [c.late_iff h.range]
  omega

theorem State.done_iff (s : State) :
    s.done = true ↔ s.cancelled = true ∨ ShutdownSignal.expired s.deadline s.clock = true := by
  unfold State.done
  rw [Bool.or_eq_true]

theorem Later.done (h : Later s s') (hr : InRange s) (hd : s.done = true) : s'.done = true := by
  rw [State.done_iff] at hd ⊢
  exact hd.imp h.cancelled (h.expired hr)

theorem Knows.later {pc : Pc} (h : Later s s') (hr : InRange s) (hk : Knows s pc) :
    Knows s' pc := by
  cases pc with
  | cancels first =>
    cases first with
    | true => trivial
    | false => exact h.cancelled hk
  | user call remain readAt => exact ⟨h.deadline ▸ hk.1, hk.2⟩
  | final call => exact hk.imp (h.done hr) (h.late hr)
  | finalClock call before =>
    exact ⟨fun hb => h.expired hr (hk.1 hb), hk.2.imp (h.expired hr) (h.late hr)⟩
  | unlock call before result =>
    exact ⟨hk.1, fun hres => h.done hr (hk.2.1 hres), fun hres => h.late hr (hk.2.2 hres)⟩
  | _ => trivial

end Later

theorem done_of_cancelled {s : State} (h : s.cancelled = true) : s.done = true :=
  s.done_iff.2 (.inl h)

theorem done_of_expired {s : State} (h : expired s.deadline s.clock = true) : s.done = true :=
  s.done_iff.2 (.inr h)

theorem expired_of_done {s : State} (h : s.done = true) (hc : s.cancelled = false) :
    expired s.deadline s.clock = true := by
  cases s.done_iff.1 h with
  | inl set =>
    rw [hc] at set
    cases set
  | inr he => exact he

theorem expired_of_remaining {s : State} (hr : InRange s)
    (h : remaining s.deadline s.clock = 0) : expired s.deadline s.clock = true := by
  rw [expired_iff hr.deadline.2 hr.clock]
  by_cases pos : 0 ≤ s.deadline
  · rw [remaining_eq pos hr.deadline.2 hr.clock] at h
    omega
  · rw [remaining_none (Int.not_le.1 pos)] at h
    cases h

theorem Goes.knows {s : State} {a b : Pc} (hr : InRange s) (h : Goes s a b) (ha : Knows s a) :
    Knows s b := by
  cases h with
  | loses set => exact set
  | sees call set | seesAgain call set => exact .inl (done_of_cancelled set)
  | expires call late => exact .inl (done_of_expired late)
  | nothingLeft call zero => exact .inl (done_of_expired (expired_of_remaining hr zero))
  | left call more => exact ⟨rfl, more, hr.clock⟩
  | late call remain readAt hl => exact .inr hl
  | ends call set =>
    exact ⟨fun _ => rfl, fun _ => done_of_cancelled set, nofun⟩
  | checks call unset =>
    exact ⟨fun hd => expired_of_done hd unset, ha.imp (fun hd => expired_of_done hd unset) id⟩
  | decides call before =>
    refine ⟨ha.1, done_of_expired, fun early => ?_⟩
    cases ha.2 with
    | inl reached =>
      rw [early] at reached
      cases reached
    | inr hl => exact hl
  | _ => trivial

theorem Enters.knows {s : State} {a b : Pc} (h : Enters a b) : Knows s b := by
  cases h <;> trivial

theorem wake_knows {s : State} {pc : Pc} (h : Knows s pc) : Knows s pc.wake := by
  cases pc <;> exact h

theorem moves_later {s s' : State} (hr : InRange s) (hm : Moves s s') : Later s s' := by
  have same : s.clock ≤ int64Max := hr.clock
  cases hm with
  | tick ms small => exact ⟨id, rfl, Nat.le_add_right .., by exact_mod_cast small⟩
  | wins t hp first => exact ⟨fun _ => rfl, rfl, Nat.le_refl _, same⟩
  | goes | enters | tells | leaves | calls | cancels | sleeps | returns =>
    exact ⟨id, rfl, Nat.le_refl _, same⟩

/-- The thread that moves knows what it needs, the others know what they knew. -/
theorem moves_knows {s s' : State} (hr : InRange s) (h : ∀ t, Knows s (s.m.pc t))
    (hm : Moves s s') : ∀ t, Knows s' (s'.m.pc t) := by
  have later := moves_later hr hm
  have moved (t u : Nat) (pc : Pc) (hpc : Knows s pc) :
      Knows s' (if u = t then pc else s.m.pc u) := by
    split
    · exact hpc.later later hr
    · exact (h u).later later hr
  intro u
  cases hm with
  | tick ms => exact (h u).later later hr
  | goes t pc hpc =>
    rw [State.goto, Threads.goto_pc]
    exact moved t u pc (hpc.knows hr (h t))
  | enters t pc free hpc =>
    rw [Threads.enter_pc]
    exact moved t u pc hpc.knows
  | wins t hp first =>
    rw [State.goto, Threads.goto_pc]
    exact moved t u _ trivial
  | tells t hp =>
    simp only [State.broadcast, Threads.goto_pc, Threads.wake_pc, if_true]
    split
    · trivial
    · exact (wake_knows (h u)).later later hr
  | leaves t hp =>
    rw [Threads.leave_pc]
    exact moved t u _ trivial
  | calls t hp =>
    rw [State.callback, State.goto, Threads.goto_pc]
    exact moved t u (.cancels true) trivial
  | cancels t first hp =>
    rw [State.cancel, State.goto, Threads.goto_pc]
    exact moved t u .outside trivial
  | sleeps t call remain readAt hp =>
    rw [Threads.leave_pc]
    exact moved t u (.blocked call) trivial
  | returns t call before result hp =>
    rw [State.wait, Threads.leave_pc]
    exact moved t u .outside trivial

/-! ## What is recorded -/

/-- A wait returns `true` if the token was done before its last test, only if the token
is done when it returns, and `false` only if its own deadline is reached. -/
structure Return.Ok (r : Return) : Prop where
  ifDone : r.before = true → r.result = true
  onlyIfDone : r.result = true → r.after = true
  late : r.result = false → r.late = true

/-- An inner wait lasts no longer than what the call has read as the remaining time of
the token's deadline and of its own, if there are any. -/
structure Inner.Ok (deadline : Int) (w : Inner) : Prop where
  token : 0 ≤ deadline → 0 < w.toWait ∧ w.toWait ≤ deadline - w.readAt
  caller : 0 ≤ w.call.timeoutMs →
    0 < w.toWait ∧ w.toWait ≤ w.call.userDeadline - w.userReadAt

theorem toWait_le {remain userRemain : Int} (hr : remain = -1 ∨ 0 < remain)
    (hu : userRemain = -1 ∨ 0 < userRemain) :
    (0 < remain → 0 < toWait remain userRemain ∧ toWait remain userRemain ≤ remain) ∧
    (0 < userRemain →
      0 < toWait remain userRemain ∧ toWait remain userRemain ≤ userRemain) := by
  unfold toWait
  constructor <;> intro pos <;> split <;> (try split) <;> (try split) <;> omega

theorem sleeps_ok {s : State} {c : Call} {remain : Int} {readAt : Nat} (hr : InRange s)
    (hk : Knows s (.user c remain readAt)) (early : c.late s.clock = false) :
    Inner.Ok s.deadline ⟨c, toWait remain (c.userRemain s.clock), readAt, s.clock⟩ := by
  obtain ⟨rfl, more, read⟩ := hk
  have token (pos : 0 ≤ s.deadline) : 0 < remaining s.deadline readAt ∧
      remaining s.deadline readAt = s.deadline - readAt := by
    rw [remaining_eq pos hr.deadline.2 read] at more ⊢
    omega
  have caller (pos : 0 ≤ c.timeoutMs) : 0 < c.userRemain s.clock := by
    have : ¬ c.late s.clock = true := by simp [early]
    rw [c.late_iff hr.clock] at this
    rw [c.userRemain_eq pos hr.clock]
    omega
  have left : remaining s.deadline readAt = -1 ∨ 0 < remaining s.deadline readAt := by
    by_cases pos : 0 ≤ s.deadline
    · exact .inr (token pos).1
    · exact .inl (remaining_none (Int.not_le.1 pos))
  have userLeft : c.userRemain s.clock = -1 ∨ 0 < c.userRemain s.clock := by
    by_cases pos : 0 ≤ c.timeoutMs
    · exact .inr (caller pos)
    · exact .inl (if_neg pos)
  obtain ⟨short, userShort⟩ := toWait_le left userLeft
  constructor
  · intro pos
    obtain ⟨some, within⟩ := short (token pos).1
    exact ⟨some, Int.le_trans within (Int.le_of_eq (token pos).2)⟩
  · intro pos
    obtain ⟨some, within⟩ := userShort (caller pos)
    exact ⟨some, Int.le_trans within (Int.le_of_eq (c.userRemain_eq pos hr.clock))⟩

/-- What was recorded is as it should be. -/
structure Recorded (s : State) : Prop where
  waits : ∀ r ∈ s.waits, r.Ok
  inner : ∀ w ∈ s.inner, w.Ok s.deadline

theorem moves_recorded {s s' : State} (hr : InRange s) (hk : ∀ t, Knows s (s.m.pc t))
    (h : Recorded s) (hm : Moves s s') : Recorded s' := by
  cases hm with
  | tick | goes | enters | wins | tells | leaves | calls | cancels => exact ⟨h.waits, h.inner⟩
  | sleeps t call remain readAt hp early =>
    refine ⟨h.waits, fun w hw => ?_⟩
    cases List.mem_cons.1 hw with
    | inl new =>
      have known : Knows s (.user call remain readAt) := hp ▸ hk t
      have ok := sleeps_ok hr known early
      rw [new]
      exact ok
    | inr old => exact h.inner w old
  | returns t call before result hp =>
    refine ⟨fun r hret => ?_, h.inner⟩
    cases List.mem_cons.1 hret with
    | inl new =>
      have known : Knows s (.unlock call before result) := hp ▸ hk t
      rw [new]
      exact ⟨known.1, known.2.1, known.2.2⟩
    | inr old => exact h.waits r old

/-! ## Runs -/

structure Inv (s : State) : Prop where
  range : InRange s
  guarded : Guarded Pc.inside s.m
  phase : Phase s
  awake : Awake s
  knows : ∀ t, Knows s (s.m.pc t)
  recorded : Recorded s

theorem init_inv (timeoutMs : Int) (cb : Bool) (now : Fin (2 ^ 63)) :
    Inv (init timeoutMs cb now) where
  range := by
    refine ⟨timeoutDeadline_range timeoutMs now, ?_⟩
    have := now.isLt
    show (now.val : Int) ≤ int64Max
    unfold int64Max
    omega
  guarded := guarded_idle rfl
  phase := .isOpen ⟨rfl, rfl, rfl, rfl, rfl, fun _ => rfl⟩
  awake := nofun
  knows := fun _ => trivial
  recorded := ⟨nofun, nofun⟩

theorem moves_inv {s s' : State} (i : Inv s) (hm : Moves s s') : Inv s' where
  range := by
    have later := moves_later i.range hm
    exact ⟨later.deadline ▸ i.range.deadline, later.range⟩
  guarded := moves_guarded i.guarded hm
  phase := by
    refine moves_phase i.phase (fun t hp => ?_) hm
    have known := i.knows t
    rwa [hp] at known
  awake := moves_awake i.guarded i.phase i.awake hm
  knows := moves_knows i.range i.knows hm
  recorded := moves_recorded i.range i.knows i.recorded hm

/-- One cancel wins the exchange and returns `true`; it has run the callback by then, and
nobody else runs it. After its broadcast no wait is blocked. The waits are as they
should be. -/
structure Good (s : State) : Prop where
  oneTrue : s.cancels.count true ≤ 1
  oneWinner : s.cancels ≠ [] → s.won.length = 1
  callbacks : s.callbacks ≤ s.calls
  called : true ∈ s.cancels → s.callbacks = s.calls
  awake : s.told = true → ∀ t call, s.m.pc t ≠ .blocked call
  told : true ∈ s.cancels → s.told = true
  waits : ∀ r ∈ s.waits, r.Ok
  inner : ∀ w ∈ s.inner, w.Ok s.deadline

theorem Phase.counts {s : State} (h : Phase s) :
    s.cancels.count true ≤ 1 ∧ (s.cancels ≠ [] → s.won.length = 1) ∧ s.callbacks ≤ s.calls ∧
      (true ∈ s.cancels → s.callbacks = s.calls ∧ s.told = true) := by
  cases h with
  | isOpen o => simp [o.cancels, o.callbacks]
  | winning t o =>
    refine ⟨by rw [o.cancels]; decide, fun _ => by rw [o.won]; rfl, ?_, fun won => ?_⟩
    · rw [o.callbacks]
      split
      · exact Nat.le_refl _
      · exact Nat.zero_le _
    · have := List.count_pos_iff.2 won
      have := o.cancels
      omega
  | isOver o =>
    exact ⟨Nat.le_of_eq o.cancels, fun _ => o.won, Nat.le_of_eq o.callbacks,
      fun _ => ⟨o.callbacks, o.told⟩⟩

theorem Inv.good {s : State} (i : Inv s) : Good s := by
  obtain ⟨oneTrue, oneWinner, callbacks, called⟩ := i.phase.counts
  refine ⟨oneTrue, oneWinner, callbacks, fun won => (called won).1, fun told t call hp => ?_,
    fun won => (called won).2, i.recorded.waits, i.recorded.inner⟩
  have := i.awake told t
  rw [hp] at this
  cases this

/-- **The shutdown token.** For any number of threads that cancel a token and wait for
it, with any timeouts and any clock that does not go back. -/
theorem token_runs (timeoutMs : Int) (cb : Bool) (now : Fin (2 ^ 63)) (ls : List Label) :
    Throughout step Good (init timeoutMs cb now) ls :=
  throughout_of_invariant (fun _ _ _ i h => moves_inv i (step_moves h)) (fun _ i => i.good)
    (init_inv timeoutMs cb now) ls

end Coter.ShutdownSignal
