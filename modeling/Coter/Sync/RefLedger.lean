import Coter.Sync.RefTurns

/-!
# References and calls

`refs` changes where the counter does. Here it is compared with the calls that returned: an
increment that succeeded brought its thread one reference, a decrement took one away.

* `Took.balance`, `step_balance`: what a step does to the references of a thread;
* `counted_runs`: over every run, the counter is the number of references, and these are the
  references that the calls brought and took away.
-/

namespace Coter.Ref

/-- The call brought the thread `u` a reference. -/
def Return.brings (u : Nat) (r : Return) : Bool :=
  r.thread == u && !r.op.isDec && r.result

/-- The call took a reference away from the thread `u`. -/
def Return.takes (u : Nat) (r : Return) : Bool :=
  r.thread == u && r.op.isDec

/-- The references that calls of the thread `u` brought it. -/
def State.brought (s : State) (u : Nat) : Nat := s.returns.countP (Return.brings u)

/-- The references that calls of the thread `u` took away, and the one that a call took away
which unlocks the mutex before it returns. -/
def State.taken (s : State) (u : Nat) : Nat :=
  s.returns.countP (Return.takes u) + if s.pcs u = .unlock then 1 else 0

/-- The thread `u` hands a reference to another one. -/
def Label.handedBy (u : Nat) : Label → Bool
  | .hand t _ => t == u
  | .call .. | .turn .. | .lock _ | .unlock _ => false

/-- A reference is handed to the thread `u`. -/
def Label.handedTo (u : Nat) : Label → Bool
  | .hand _ v => v == u
  | .call .. | .turn .. | .lock _ | .unlock _ => false

/-- After the steps `ls` from `init t`, each thread holds the first reference, if it is `t`, those
it was handed and those its increments brought, less those it handed on and those its decrements
took away. -/
def Balanced (t : Nat) (ls : List Label) (s : State) : Prop :=
  ∀ u, s.refs.count u + s.taken u + ls.countP (Label.handedBy u) =
    (if u = t then 1 else 0) + s.brought u + ls.countP (Label.handedTo u)

/-! ## Steps -/

/-- What follows takes a reference of the thread away. -/
def After.takes : After → Bool
  | .ret op _ => op.isDec
  | .unlock => true

/-- What follows brings the thread a reference. -/
def After.brings : After → Bool
  | .ret op result => !op.isDec && result
  | .unlock => false

variable {b : Backend} {s s' : State} {t : Nat}

theorem goto_taken {pc : Pc} (before : s.pcs t ≠ .unlock) (after : pc ≠ .unlock) (u : Nat) :
    (s.goto t pc).taken u = s.taken u := by
  by_cases hu : u = t
  · simp [State.taken, State.goto, hu, before, after]
  · simp [State.taken, State.goto, hu]

theorem finish_taken (after : After) (before : s.pcs t ≠ .unlock) (u : Nat) :
    (s.finish t after).taken u = s.taken u + if u = t ∧ after.takes = true then 1 else 0 := by
  cases after with
  | ret op result =>
    by_cases hu : u = t
    · simp [State.taken, State.finish, State.goto, List.countP_cons, Return.takes, After.takes, hu,
        before]
    · simp [State.taken, State.finish, State.goto, Return.takes, hu, Ne.symm hu]
  | unlock =>
    by_cases hu : u = t
    · simp [State.taken, State.finish, State.goto, After.takes, hu, before]
    · simp [State.taken, State.finish, State.goto, hu]

theorem finish_brought (after : After) (u : Nat) :
    (s.finish t after).brought u =
      s.brought u + if u = t ∧ after.brings = true then 1 else 0 := by
  cases after with
  | ret op result =>
    by_cases hu : u = t
    · simp [State.brought, State.finish, List.countP_cons, Return.brings, After.brings, hu]
    · simp [State.brought, State.finish, Return.brings, hu, Ne.symm hu]
  | unlock => simp [State.brought, State.finish, After.brings, State.goto]

theorem acquire_count (s : State) (t u : Nat) :
    (s.acquire t).refs.count u = s.refs.count u + if u = t then 1 else 0 := by
  rw [State.acquire, List.count_cons]
  by_cases hu : u = t
  · simp [hu]
  · simp [hu, Ne.symm hu]

theorem drop_count (holds : t ∈ s.refs) (u : Nat) :
    (s.drop t).refs.count u + (if u = t then 1 else 0) = s.refs.count u := by
  rw [State.drop, List.count_erase]
  by_cases hu : u = t
  · subst hu
    have := List.count_pos_iff.2 holds
    simp only [BEq.rfl, if_true]
    omega
  · simp [hu, Ne.symm hu]

/-- The thread gets a reference where its call returns that it does. -/
theorem balance_gain {after : After} (value : Nat) (before : s.pcs t ≠ .unlock)
    (brings : after.brings = true) (keeps : after.takes = false) (u : Nat) :
    (((s.acquire t).store value).finish t after).refs.count u +
        (((s.acquire t).store value).finish t after).taken u + s.brought u =
      s.refs.count u + s.taken u + (((s.acquire t).store value).finish t after).brought u := by
  have counts := acquire_count s t u
  have same : ((s.acquire t).store value).taken u = s.taken u := rfl
  have taken : (((s.acquire t).store value).finish t after).taken u = s.taken u := by
    rw [finish_taken (s := (s.acquire t).store value) after before, keeps, same]
    simp
  have brought : (((s.acquire t).store value).finish t after).brought u =
      s.brought u + if u = t then 1 else 0 := by
    rw [finish_brought, brings]
    simp [State.brought, State.acquire, State.store]
  rw [finish_refs, taken, brought]
  show (s.acquire t).refs.count u + _ + _ = _
  omega

/-- The thread gives up a reference where its call returns, or goes on to the unlock. -/
theorem balance_lose {after : After} (value : Nat) (before : s.pcs t ≠ .unlock)
    (holds : t ∈ s.refs) (takes : after.takes = true) (brings : after.brings = false) (u : Nat) :
    (((s.drop t).store value).finish t after).refs.count u +
        (((s.drop t).store value).finish t after).taken u + s.brought u =
      s.refs.count u + s.taken u + (((s.drop t).store value).finish t after).brought u := by
  have counts := drop_count holds u
  have same : ((s.drop t).store value).taken u = s.taken u := rfl
  have taken : (((s.drop t).store value).finish t after).taken u =
      s.taken u + if u = t then 1 else 0 := by
    rw [finish_taken (s := (s.drop t).store value) after before, takes, same]
    simp
  have brought : (((s.drop t).store value).finish t after).brought u = s.brought u := by
    rw [finish_brought, brings]
    simp [State.brought, State.drop, State.store]
  rw [finish_refs, taken, brought]
  show (s.drop t).refs.count u + _ + _ = _
  omega

theorem balance_goto {pc : Pc} (before : s.pcs t ≠ .unlock) (after : pc ≠ .unlock) (u : Nat) :
    (s.goto t pc).refs.count u + (s.goto t pc).taken u + s.brought u =
      s.refs.count u + s.taken u + (s.goto t pc).brought u := by
  rw [goto_taken before after]
  rfl

theorem decReturn_takes (locked result : Bool) : (decReturn locked result).takes = true := by
  cases locked <;> cases result <;> rfl

theorem decReturn_brings (locked result : Bool) : (decReturn locked result).brings = false := by
  cases locked <;> cases result <;> rfl

theorem away_of_reads (h : (s.pcs t).readsNotZero = true) : s.pcs t ≠ .unlock := by
  intro hpc
  rw [hpc] at h
  cases h

theorem away_of_drops (h : (s.pcs t).drops = true) : s.pcs t ≠ .unlock := by
  intro hpc
  rw [hpc] at h
  cases h

theorem holds_of_drops (hi : Inv s) (h : (s.pcs t).drops = true) : t ∈ s.refs := by
  have ok := hi.threads t
  cases hpc : s.pcs t with
  | decAndMutexLock | decAndMutexLockCas =>
    rw [hpc] at ok
    exact ok.1
  | idle | inc | incNotZero | incNotZeroCas | decAndTest | lock | unlock | saturate =>
    rw [hpc] at h
    cases h

/-- One case for each access: what it does to the references is what it returns. -/
theorem Took.balance (hi : Inv s) (h : Took s t s') (u : Nat) :
    s'.refs.count u + s'.taken u + s.brought u = s.refs.count u + s.taken u + s'.brought u := by
  have ok := hi.threads t
  cases h with
  | inc hpc => exact balance_gain _ (by simp [hpc]) rfl rfl u
  | refuse hpc =>
    rw [finish_taken _ (away_of_reads hpc), finish_brought]
    simp [After.takes, After.brings, Op.isDec]
  | reads old hpc => exact balance_goto (away_of_reads hpc) (by simp) u
  | revive hpc => exact balance_gain _ (away_of_reads hpc) rfl rfl u
  | compares value hpc => exact balance_goto (away_of_drops hpc) (by simp) u
  | lower hpc => exact balance_lose _ (away_of_drops hpc) (holds_of_drops hi hpc) rfl rfl u
  | waits hpc => exact balance_goto (away_of_drops hpc) (by simp) u
  | enter hpc => exact balance_goto (s := { s with owner := some t }) (by simp [hpc]) (by simp) u
  | last locked hpc =>
    rw [hpc] at ok
    exact balance_lose _ (by simp [hpc]) ok.1 (decReturn_takes ..) (decReturn_brings ..) u
  | more locked hpc =>
    rw [hpc] at ok
    exact balance_lose _ (by simp [hpc]) ok.1 (decReturn_takes ..) (decReturn_brings ..) u
  | unlock hpc =>
    -- The reference went with the decrement; now the call returns.
    rw [finish_brought]
    by_cases hu : u = t
    · subst hu
      simp [State.taken, State.finish, State.goto, Return.takes, Op.isDec, hpc,
        After.brings, State.brought]
    · simp [State.taken, State.finish, State.goto, Return.takes, Op.isDec, hu,
        Ne.symm hu, After.brings, State.brought]

theorem step_balance {l : Label} (hi : Inv s) (hb : s.refs.length ≤ refcountMax)
    (hb' : s'.refs.length ≤ refcountMax) (hstep : step b s l = some s') (u : Nat) :
    s'.refs.count u + s'.taken u + s.brought u + (if l.handedBy u then 1 else 0) =
      s.refs.count u + s.taken u + s'.brought u + (if l.handedTo u then 1 else 0) := by
  cases l with
  | call t op =>
    simp only [step, Option.ite_none_right_eq_some, Option.some.injEq] at hstep
    obtain ⟨⟨idle, -⟩, rfl⟩ := hstep
    exact balance_goto (by simp [idle]) (by cases op <;> simp [Op.start]) u
  | turn t spurious => exact (turn_took hi hb hb' hstep).balance hi u
  | lock t | unlock t =>
    simp only [step, Option.ite_none_right_eq_some, Option.some.injEq] at hstep
    obtain ⟨-, rfl⟩ := hstep
    rfl
  | hand t v =>
    simp only [step, Option.ite_none_right_eq_some, Option.some.injEq] at hstep
    obtain ⟨⟨-, holds⟩, rfl⟩ := hstep
    have lost := drop_count holds u
    have got := acquire_count (s.drop t) v u
    have same : ((s.drop t).acquire v).taken u = s.taken u := rfl
    have calls : ((s.drop t).acquire v).brought u = s.brought u := rfl
    simp only [Label.handedBy, Label.handedTo, beq_iff_eq, eq_comm (b := u)]
    omega

/-! ## Runs -/

theorem init_count (t u : Nat) : (init t).refs.count u = if u = t then 1 else 0 := by
  by_cases hu : u = t
  · simp [init, hu]
  · simp [init, hu, Ne.symm hu]

theorem run_balanced {ls : List Label}
    (h : Lib.Lts.Throughout (step b) (fun s => s.refs.length ≤ refcountMax) (init t) ls)
    (hrun : Lib.Lts.run (step b) (init t) ls = some s) : Balanced t ls s := by
  intro u
  have each (s : State) (l : Label) (s' : State) (hi : Inv s ∧ s.refs.length ≤ refcountMax)
      (hb' : s'.refs.length ≤ refcountMax) (hstep : step b s l = some s') :
      (Inv s' ∧ s'.refs.length ≤ refcountMax) ∧
        s'.refs.count u + s'.taken u + s.brought u + (if l.handedBy u then 1 else 0) =
          s.refs.count u + s.taken u + s'.brought u + (if l.handedTo u then 1 else 0) :=
    ⟨⟨move_inv hi.1 (step_move hi.1 hi.2 hb' hstep), hb'⟩, step_balance hi.1 hi.2 hb' hstep u⟩
  have start : Inv (init t) ∧ (init t).refs.length ≤ refcountMax :=
    ⟨init_inv t, by simp [init, refcountMax]⟩
  have account := Lib.Lts.run_account (fun s : State => s.refs.count u + s.taken u)
    (fun s => s.brought u) (Label.handedBy u) (Label.handedTo u) each start h hrun
  have first := init_count t u
  have none_taken : (init t).taken u = 0 := by simp [init, State.taken]
  have none_brought : (init t).brought u = 0 := by simp [init, State.brought]
  omega

/-- **The counter counts.** On every backend and over every interleaving of any
number of threads that never hold more than `refcountMax` references, the
counter is the number of references, the one decrement that takes it from 1 to 0
is the one that returns `true`, zero is final, and the mutex is held on return
from `ct_refcount_dec_and_mutex_lock` exactly when it returns `true`. A thread holds
the references that it was given and that its increments brought it, less those that
it gave away and that its decrements took. -/
theorem counted_runs (b : Backend) (t : Nat) (ls : List Label)
    (h : Lib.Lts.Throughout (step b) (fun s => s.refs.length ≤ refcountMax) (init t) ls) :
    Lib.Lts.Throughout (step b) Counted (init t) ls ∧
    Lib.Lts.EachStep (step b) (fun s l => ∀ s', step b s l = some s' → StepSound s l s')
      (init t) ls ∧
    ∀ s, Lib.Lts.run (step b) (init t) ls = some s → Balanced t ls s := by
  have keeps (s : State) (l : Label) (s' : State) (hi : Inv s ∧ s.refs.length ≤ refcountMax)
      (hb' : s'.refs.length ≤ refcountMax) (hstep : step b s l = some s') :
      (Inv s' ∧ s'.refs.length ≤ refcountMax) ∧
        ∀ u, step b s l = some u → StepSound s l u := by
    have sound : StepSound s l s' := step_sound hi.1 hi.2 hb' hstep
    refine ⟨⟨move_inv hi.1 (step_move hi.1 hi.2 hb' hstep), hb'⟩, fun u hu => ?_⟩
    obtain rfl : s' = u := Option.some.inj (hstep.symm.trans hu)
    exact sound
  have start : Inv (init t) ∧ (init t).refs.length ≤ refcountMax :=
    ⟨init_inv t, by simp [init, refcountMax]⟩
  obtain ⟨inv, sound⟩ := Lib.Lts.eachStep_of_throughout keeps start h
  exact ⟨Lib.Lts.throughout_mono (fun s hs => ⟨hs.1.counts, hs.1.finals⟩) inv, sound,
    fun s hrun => run_balanced h hrun⟩

/-- Two references dropped under the mutex, with a late try to revive. -/
theorem counted_two_drops :
    Lib.Lts.Throughout (step .gccAtomic) Counted (init 0)
      [.call 0 .inc, .turn 0 false, .hand 0 1, .call 0 .decAndMutexLock, .turn 0 false,
        .call 1 .decAndTest, .turn 1 false, .turn 0 true, .turn 0 false, .turn 0 false,
        .call 2 .incNotZero, .turn 2 false] :=
  (counted_runs .gccAtomic 0 _ (by decide)).1

end Coter.Ref
