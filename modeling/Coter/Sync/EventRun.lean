import Coter.Lib.Lts
import Coter.Sync.Event

/-!
# Runs of the event

* `Moves`: what a step can do;
* `Attended`: while nobody is about to take or to pass on the flag, a blocked thread
  has company on its way back to the mutex;
* `event_runs`: over every run, no more waits succeed than signals were given, and no
  signal is stranded.
-/

namespace Coter.Event

open Lib.Monitor Lib.Lts

/-- The thread is on its way back to the mutex and will test the flag. -/
def Pc.isReady : Pc → Bool
  | .woken _ result => result = .ok
  | _ => false

/-- The thread is about to take the flag, or to tell another one of it. -/
def Pc.isBusy : Pc → Bool
  | .test _ | .notify => true
  | _ => false

/-! ## What a step can do -/

/-- The first step under the mutex. -/
inductive Enters : Pc → Pc → Prop
  | wait (deadline : Option Int) : Enters (.waitLock deadline) (.test deadline)
  | signal : Enters .signalLock .set
  | reset : Enters .resetLock .clear
  | resume (deadline : Option Int) : Enters (.woken deadline .ok) (.test deadline)
  | giveUp (deadline : Option Int) (result : Code) (h : result ≠ .ok) :
      Enters (.woken deadline result) (.unlock true result)

inductive Moves (n : Nat) (s : State) : State → Prop
  | tick (ms : Nat) : Moves n s { s with clock := s.clock + ms }
  | begins (t : Nat) (pc : Pc) (ht : t < n) (h : s.m.pc t = .outside)
      (hpc : pc = .signalLock ∨ pc = .resetLock ∨ ∃ deadline, pc = .waitLock deadline) :
      Moves n s { s with m := s.m.goto t pc }
  | enters (t : Nat) (pc : Pc) (free : s.m.owner = none) (h : Enters (s.m.pc t) pc) :
      Moves n s { s with m := s.m.enter t pc }
  | takes (t : Nat) (deadline : Option Int) (h : s.m.pc t = .test deadline)
      (flag : s.count ≠ 0) :
      Moves n s { s with m := s.m.goto t (.unlock true .ok), count := 0 }
  | fails (t : Nat) (deadline : Option Int) (result : Code) (h : s.m.pc t = .test deadline)
      (flag : s.count = 0) (hr : result ≠ .ok) :
      Moves n s { s with m := s.m.goto t (.unlock true result) }
  | blocks (t : Nat) (deadline : Option Int) (h : s.m.pc t = .test deadline)
      (flag : s.count = 0) :
      Moves n s { s with m := s.m.leave t (.blocked deadline) }
  | sets (t : Nat) (h : s.m.pc t = .set) :
      Moves n s { s with m := s.m.goto t .notify, count := 1, signals := s.signals + 1 }
  | notifies (t : Nat) (woke : Option Nat) (h : s.m.pc t = .notify)
      (may : s.m.MayWake Pc.isBlocked n woke) : Moves n s (s.notify t woke)
  | clears (t : Nat) (h : s.m.pc t = .clear) :
      Moves n s { s with m := s.m.goto t (.unlock false .ok), count := 0 }
  | unlocks (t : Nat) (wait : Bool) (result : Code) (h : s.m.pc t = .unlock wait result) :
      Moves n s (s.unlock t wait result)
  | wakes (t : Nat) (deadline : Option Int) (result : Code) (h : s.m.pc t = .blocked deadline) :
      Moves n s { s with m := s.m.goto t (.woken deadline result) }

section Moves

variable {n : Nat} {s s' : State} {t : Nat}

theorem test_moves {deadline : Option Int} (h : s.m.pc t = .test deadline) :
    Moves n s (s.test t deadline) := by
  unfold State.test
  split
  · rename_i flag
    split
    · exact .fails t deadline .etimedout h flag nofun
    · exact .blocks t deadline h flag
  · rename_i flag
    exact .takes t deadline h flag

theorem reacquire_moves {deadline : Option Int} {result : Code}
    (h : s.m.pc t = .woken deadline result) (free : s.m.owner = none) :
    Moves n s (s.reacquire t deadline result) := by
  unfold State.reacquire
  split
  · rename_i ok
    subst ok
    exact .enters t _ free (h ▸ .resume deadline)
  · rename_i bad
    exact .enters t _ free (h ▸ .giveUp deadline result bad)

theorem turn_moves {woke : Option Nat} (hstep : turn n s t woke = some s') : Moves n s s' := by
  unfold turn at hstep
  cases hp : s.m.pc t with
  | outside | blocked _ =>
    rw [hp] at hstep
    cases hstep
  | waitLock deadline =>
    simp only [hp, Option.ite_none_right_eq_some, Option.some.injEq] at hstep
    obtain ⟨free, rfl⟩ := hstep
    exact .enters t _ free (hp ▸ .wait deadline)
  | signalLock =>
    simp only [hp, Option.ite_none_right_eq_some, Option.some.injEq] at hstep
    obtain ⟨free, rfl⟩ := hstep
    exact .enters t _ free (hp ▸ .signal)
  | resetLock =>
    simp only [hp, Option.ite_none_right_eq_some, Option.some.injEq] at hstep
    obtain ⟨free, rfl⟩ := hstep
    exact .enters t _ free (hp ▸ .reset)
  | test deadline =>
    rw [hp] at hstep
    cases hstep
    exact test_moves hp
  | woken deadline result =>
    simp only [hp, Option.ite_none_right_eq_some, Option.some.injEq] at hstep
    obtain ⟨free, rfl⟩ := hstep
    exact reacquire_moves hp free
  | set =>
    rw [hp] at hstep
    cases hstep
    exact .sets t hp
  | notify =>
    simp only [hp, Option.ite_none_right_eq_some, Option.some.injEq] at hstep
    obtain ⟨may, rfl⟩ := hstep
    exact .notifies t woke hp may
  | clear =>
    rw [hp] at hstep
    cases hstep
    exact .clears t hp
  | unlock wait result =>
    rw [hp] at hstep
    cases hstep
    exact .unlocks t wait result hp

theorem fail_moves {errno : Int} (hstep : s.fail t errno = some s') : Moves n s s' := by
  unfold State.fail at hstep
  split at hstep
  · rename_i deadline hp
    simp only [Option.ite_none_right_eq_some, Option.some.injEq] at hstep
    obtain ⟨⟨flag, -⟩, rfl⟩ := hstep
    exact .fails t deadline _ hp flag nofun
  · cases hstep

theorem begin_moves {pc : Pc} (hstep : s.begin n t pc = some s')
    (hpc : pc = .signalLock ∨ pc = .resetLock ∨ ∃ deadline, pc = .waitLock deadline) :
    Moves n s s' := by
  simp only [State.begin, Option.ite_none_right_eq_some, Option.some.injEq] at hstep
  obtain ⟨⟨ht, out⟩, rfl⟩ := hstep
  exact .begins t pc ht out hpc

theorem step_moves {l : Label} (hstep : step n s l = some s') : Moves n s s' := by
  cases l with
  | tick ms =>
    cases hstep
    exact .tick ms
  | wait t => exact begin_moves hstep (.inr (.inr ⟨_, rfl⟩))
  | timedwait t timeoutMs => exact begin_moves hstep (.inr (.inr ⟨_, rfl⟩))
  | signal t => exact begin_moves hstep (.inl rfl)
  | reset t => exact begin_moves hstep (.inr (.inl rfl))
  | turn t woke => exact turn_moves hstep
  | fail t errno => exact fail_moves hstep
  | wake t result =>
    simp only [step, Option.ite_none_right_eq_some, Option.some.injEq] at hstep
    obtain ⟨hb, rfl⟩ := hstep
    cases hp : s.m.pc t with
    | blocked deadline => exact .wakes t deadline result hp
    | outside | waitLock | signalLock | resetLock | test | woken | set | notify | clear | unlock =>
      rw [hp] at hb
      cases hb

end Moves

/-! ## The threads -/

theorem wake_inside (result : Code) (pc : Pc) : (pc.wake result).inside = pc.inside := by
  cases pc <;> rfl

theorem Enters.inside {a b : Pc} (h : Enters a b) : b.inside = true := by
  cases h <;> rfl

theorem moves_guarded {n : Nat} {s s' : State} (h : Guarded Pc.inside s.m) (hm : Moves n s s') :
    Guarded Pc.inside s'.m := by
  cases hm with
  | tick ms => exact h
  | begins t pc ht out hpc =>
    refine h.goto ?_
    rw [out]
    obtain rfl | rfl | ⟨deadline, rfl⟩ := hpc <;> rfl
  | enters t pc free hpc => exact h.enter free hpc.inside
  | takes t deadline hp | fails t deadline result hp | sets t hp | clears t hp
  | wakes t deadline result hp => exact h.goto (by rw [hp]; rfl)
  | blocks t deadline hp => exact h.leave (by rw [hp]; rfl) rfl
  | unlocks t wait result hp => exact h.leave (by rw [hp]; rfl) rfl
  | notifies t woke hp =>
    refine (h.wake (wake_inside .ok) _).goto ?_
    rw [Threads.wake_pc]
    split <;> rw [hp] <;> rfl

/-- Only the first `n` threads call anything. -/
def Bounded (n : Nat) (s : State) : Prop := ∀ t, s.m.pc t ≠ .outside → t < n

theorem update_bounded {n t : Nat} {f : Nat → Pc} {pc : Pc} (h : ∀ u, f u ≠ .outside → u < n)
    (ht : t < n) : ∀ u, Function.update f t pc u ≠ .outside → u < n := by
  intro u hu
  by_cases same : u = t
  · rwa [same]
  · exact h u (by simpa [same] using hu)

theorem Enters.outside {a b : Pc} (h : Enters a b) : a ≠ .outside := by
  rintro rfl
  cases h

theorem moves_bounded {n : Nat} {s s' : State} (h : Bounded n s) (hm : Moves n s s') :
    Bounded n s' := by
  cases hm with
  | tick ms => exact h
  | begins t pc ht => exact update_bounded h ht
  | enters t pc free hpc => exact update_bounded h (h t hpc.outside)
  | takes t deadline hp | fails t deadline result hp | sets t hp | clears t hp
  | wakes t deadline result hp | blocks t deadline hp | unlocks t wait result hp =>
    exact update_bounded h (h t (by rw [hp]; nofun))
  | notifies t woke hp =>
    refine update_bounded (fun u hu => h u ?_) (h t (by rw [hp]; nofun))
    rintro hout
    rw [Threads.wake_pc, hout] at hu
    split at hu <;> exact hu rfl

/-! ## The flag -/

/-- While nobody is about to take the flag or to tell of it, a blocked thread has a
ready one beside it. -/
def Attended (f : Nat → Pc) : Prop :=
  (∀ t, (f t).isBusy = false) → (∃ t, (f t).isBlocked = true) → ∃ t, (f t).isReady = true

theorem attended_busy {f : Nat → Pc} {t : Nat} {pc : Pc} (h : pc.isBusy = true) :
    Attended (Function.update f t pc) := by
  intro hidle
  have := hidle t
  rw [Function.update_self, h] at this
  cases this

/-- A thread that moves without blocking, and was neither ready nor busy. -/
theorem Attended.update {f : Nat → Pc} {t : Nat} {pc : Pc} (h : Attended f)
    (blocked : pc.isBlocked = false) (ready : (f t).isReady = false)
    (busy : (f t).isBusy = false) : Attended (Function.update f t pc) := by
  intro hidle hblocked
  have before (u : Nat) : (f u).isBusy = false := by
    by_cases hu : u = t
    · rw [hu, busy]
    · simpa [hu] using hidle u
  have waiting : ∃ u, (f u).isBlocked = true := by
    obtain ⟨u, hu⟩ := hblocked
    by_cases same : u = t
    · subst same
      rw [Function.update_self, blocked] at hu
      cases hu
    · exact ⟨u, by simpa [same] using hu⟩
  obtain ⟨u, hu⟩ := h before waiting
  have other : u ≠ t := by
    rintro rfl
    rw [ready] at hu
    cases hu
  exact ⟨u, by simpa [other] using hu⟩

/-- A notification makes a thread ready, or finds none blocked. -/
theorem notify_attended {n t : Nat} {s : State} {woke : Option Nat} (hb : Bounded n s)
    (ht : s.m.pc t = .notify) (may : s.m.MayWake Pc.isBlocked n woke) :
    Attended (s.notify t woke).m.pc := by
  intro _ hblocked
  cases woke with
  | some u =>
    have waits : (s.m.pc u).isBlocked = true := may
    have other : u ≠ t := by
      rintro rfl
      rw [ht] at waits
      cases waits
    refine ⟨u, ?_⟩
    simp only [State.notify, Threads.goto_pc, other, if_false, Threads.wake_pc, decide_true,
      if_true]
    cases hu : s.m.pc u with
    | blocked deadline => rfl
    | outside | waitLock | signalLock | resetLock | test | woken | set | notify | clear | unlock =>
      rw [hu] at waits
      cases waits
  | none =>
    obtain ⟨u, hu⟩ := hblocked
    simp only [State.notify, Threads.goto_pc, Threads.wake_pc, reduceCtorEq, decide_false,
      Bool.false_eq_true, if_false] at hu
    split at hu
    · cases hu
    · have inside : u < n := by
        refine hb u fun hout => ?_
        rw [hout] at hu
        cases hu
      rw [may u inside] at hu
      cases hu

theorem moves_attended {n : Nat} {s s' : State} (hb : Bounded n s)
    (h : s.count ≠ 0 → Attended s.m.pc) (hm : Moves n s s') : s'.count ≠ 0 → Attended s'.m.pc := by
  cases hm with
  | tick ms => exact h
  | takes | clears => exact fun flag => absurd rfl flag
  | fails t deadline result hp flag | blocks t deadline hp flag =>
    exact fun flag' => absurd flag flag'
  | sets t hp => exact fun _ => attended_busy rfl
  | notifies t woke hp may => exact fun _ => notify_attended hb hp may
  | begins t pc ht out hpc =>
    intro flag
    have blocked : pc.isBlocked = false := by
      obtain rfl | rfl | ⟨deadline, rfl⟩ := hpc <;> rfl
    exact (h flag).update blocked (by rw [out]; rfl) (by rw [out]; rfl)
  | unlocks t wait result hp =>
    intro flag
    exact (h flag).update rfl (by rw [hp]; rfl) (by rw [hp]; rfl)
  | wakes t deadline result hp =>
    intro flag
    exact (h flag).update rfl (by rw [hp]; rfl) (by rw [hp]; rfl)
  | enters t pc free hpc =>
    intro flag
    generalize hfrom : s.m.pc t = before at hpc
    cases hpc with
    | wait | resume => exact attended_busy rfl
    | signal | reset => exact (h flag).update rfl (by rw [hfrom]; rfl) (by rw [hfrom]; rfl)
    | giveUp deadline result bad =>
      refine (h flag).update rfl ?_ (by rw [hfrom]; rfl)
      rw [hfrom]
      exact decide_eq_false bad

/-! ## The signals -/

/-- A wait has taken the flag and is about to return. -/
def taken (m : Threads Pc) : Nat :=
  match m.owner with
  | some t => if m.pc t = .unlock true .ok then 1 else 0
  | none => 0

/-- The signals cover the waits that returned or are about to, and the flag. -/
structure Covered (s : State) : Prop where
  flag : 0 ≤ s.count
  signals : s.released + taken s.m + s.count ≤ s.signals

section Taken

variable {m : Threads Pc} {t : Nat} {pc : Pc}

theorem taken_goto (h : m.owner = some t) :
    taken (m.goto t pc) = if pc = .unlock true .ok then 1 else 0 := by
  simp [taken, Threads.goto_pc, h]

theorem taken_enter (h : pc ≠ .unlock true .ok) : taken (m.enter t pc) = 0 := by
  simp [taken, Threads.enter_pc, h]

theorem taken_leave : taken (m.leave t pc) = 0 := rfl

theorem taken_owner (h : m.owner = some t) :
    taken m = if m.pc t = .unlock true .ok then 1 else 0 := by
  simp [taken, h]

/-- A thread moves that does not own the mutex. -/
theorem taken_other (h : m.owner ≠ some t) : taken (m.goto t pc) = taken m := by
  unfold taken
  rw [Threads.goto_owner]
  cases ho : m.owner with
  | none => rfl
  | some u =>
    have other : u ≠ t := by
      rintro rfl
      exact h ho
    simp [Threads.goto_pc, other]

end Taken

theorem Enters.keeps {a b : Pc} (h : Enters a b) : b ≠ .unlock true .ok := by
  cases h with
  | giveUp deadline result bad =>
    rintro h
    cases h
    exact bad rfl
  | wait | signal | reset | resume => nofun

theorem outside_other {m : Threads Pc} (h : Guarded Pc.inside m) {t : Nat}
    (ht : (m.pc t).inside = false) : m.owner ≠ some t := by
  intro howner
  rw [(h t).2 howner] at ht
  cases ht

theorem moves_covered {n : Nat} {s s' : State} (hg : Guarded Pc.inside s.m) (h : Covered s)
    (hm : Moves n s s') : Covered s' := by
  obtain ⟨flag, covers⟩ := h
  have inside (t : Nat) (ht : (s.m.pc t).inside = true) : s.m.owner = some t := hg.owner ht
  cases hm with
  | tick ms => exact ⟨flag, covers⟩
  | begins t pc ht out hpc =>
    refine ⟨flag, ?_⟩
    rwa [taken_other (outside_other hg (by rw [out]; rfl))]
  | enters t pc free hpc =>
    refine ⟨flag, ?_⟩
    rw [taken_enter hpc.keeps]
    show (s.released : Int) + (0 : Nat) + s.count ≤ s.signals
    omega
  | takes t deadline hp set =>
    have owns := inside t (by rw [hp]; rfl)
    rw [taken_owner owns, hp, if_neg nofun] at covers
    refine ⟨Int.le_refl 0, ?_⟩
    rw [taken_goto owns, if_pos rfl]
    show (s.released : Int) + (1 : Nat) + 0 ≤ s.signals
    omega
  | fails t deadline result hp unset bad =>
    have owns := inside t (by rw [hp]; rfl)
    have other : Pc.unlock true result ≠ .unlock true .ok := fun e => bad (by simpa using e)
    refine ⟨flag, ?_⟩
    rw [taken_goto owns, if_neg other]
    show (s.released : Int) + (0 : Nat) + s.count ≤ s.signals
    omega
  | blocks t deadline hp unset =>
    refine ⟨flag, ?_⟩
    rw [taken_leave]
    show (s.released : Int) + (0 : Nat) + s.count ≤ s.signals
    omega
  | sets t hp =>
    have owns := inside t (by rw [hp]; rfl)
    refine ⟨Int.zero_le_ofNat 1, ?_⟩
    rw [taken_goto owns, if_neg nofun]
    show (s.released : Int) + (0 : Nat) + 1 ≤ (s.signals + 1 : Nat)
    omega
  | notifies t woke hp may =>
    have owns := inside t (by rw [hp]; rfl)
    refine ⟨flag, ?_⟩
    show (s.released : Int) + taken (Threads.goto _ t _) + s.count ≤ s.signals
    rw [taken_goto (by exact owns), if_neg nofun]
    omega
  | clears t hp =>
    have owns := inside t (by rw [hp]; rfl)
    refine ⟨Int.le_refl 0, ?_⟩
    rw [taken_goto owns, if_neg nofun]
    show (s.released : Int) + (0 : Nat) + 0 ≤ s.signals
    omega
  | unlocks t wait result hp =>
    have owns := inside t (by rw [hp]; rfl)
    rw [taken_owner owns, hp] at covers
    refine ⟨flag, ?_⟩
    show ((State.unlock s t wait result).released : Int) + (0 : Nat) + s.count ≤ s.signals
    simp only [State.unlock, Pc.unlock.injEq] at covers ⊢
    split
    · rename_i success
      rw [if_pos success] at covers
      omega
    · omega
  | wakes t deadline result hp =>
    refine ⟨flag, ?_⟩
    rwa [taken_other (outside_other hg (by rw [hp]; rfl))]

/-! ## Runs -/

structure Inv (n : Nat) (s : State) : Prop where
  guarded : Guarded Pc.inside s.m
  bounded : Bounded n s
  covered : Covered s
  attended : s.count ≠ 0 → Attended s.m.pc

theorem init_inv (n clock : Nat) : Inv n (init clock) where
  guarded := guarded_idle rfl
  bounded := fun _ h => absurd rfl h
  covered := ⟨Int.le_refl 0, Int.le_refl 0⟩
  attended := fun h => absurd rfl h

theorem moves_inv {n : Nat} {s s' : State} (i : Inv n s) (h : Moves n s s') : Inv n s' where
  guarded := moves_guarded i.guarded h
  bounded := moves_bounded i.bounded h
  covered := moves_covered i.guarded i.covered h
  attended := moves_attended i.bounded i.attended h

/-- No more waits than signals succeed, and with the flag set, the mutex free and
threads blocked, a thread has been woken and will test the flag. -/
structure Good (s : State) : Prop where
  released : s.released ≤ s.signals
  notStranded : s.m.owner = none → s.count = 1 → (∃ t deadline, s.m.pc t = .blocked deadline) →
    ∃ t deadline, s.m.pc t = .woken deadline .ok

theorem Inv.good {n : Nat} {s : State} (i : Inv n s) : Good s := by
  constructor
  · have := i.covered.signals
    have := i.covered.flag
    omega
  · rintro free set ⟨t, deadline, ht⟩
    have idle (u : Nat) : (s.m.pc u).isBusy = false := by
      have outside := i.guarded.free free u
      cases hu : s.m.pc u with
      | test | notify =>
        rw [hu] at outside
        cases outside
      | _ => rfl
    have flag : s.count ≠ 0 := by omega
    obtain ⟨u, hu⟩ := i.attended flag idle ⟨t, by rw [ht]; rfl⟩
    refine ⟨u, ?_⟩
    cases hp : s.m.pc u with
    | woken d result =>
      rw [hp] at hu
      obtain rfl : result = .ok := of_decide_eq_true hu
      exact ⟨d, rfl⟩
    | _ =>
      rw [hp] at hu
      cases hu

/-- **The event.** For any number of threads and over every run of calls, time-outs and
spurious wake-ups, the waits that returned 0 are at most as many as the signals, and
no signal is stranded. -/
theorem event_runs (n clock : Nat) (ls : List Label) :
    Throughout (step n) Good (init clock) ls :=
  throughout_of_invariant (fun _ _ _ i h => moves_inv i (step_moves h)) (fun _ i => i.good)
    (init_inv n clock) ls

/-- The thread 2 comes late and takes the flag from the woken thread 0. -/
example : (run (step 3) (init 0)
      [.wait 0, .turn 0 none, .turn 0 none, .signal 1, .turn 1 none, .turn 1 none,
        .turn 1 (some 0), .turn 1 none, .wait 2, .turn 2 none, .turn 2 none, .turn 2 none,
        .turn 0 none, .turn 0 none]).map (fun s => (s.released, s.m.pc 0)) =
    some (1, .blocked none) := by decide

end Coter.Event
