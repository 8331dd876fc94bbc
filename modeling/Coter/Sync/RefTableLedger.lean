import Coter.Sync.RefLedger
import Coter.Sync.RefTableRun

/-!
# References and lookups

* `Table.Recorded`: what the users' calls returned is what the counter's operations returned;
* `Table.step_counter`: the counter's system takes a step of its own, or none;
* `Table.lookups_safe`: over every run with at most `refcountMax` references.
-/

namespace Coter.Ref

/-- The call brought its thread a reference. -/
def Result.brings : Result → Bool
  | .get => true
  | .find found => found
  | .put _ => false

/-- The call took a reference of its thread away. -/
def Result.takes : Result → Bool
  | .put _ => true
  | .get | .find _ => false

/-- The lookup has its reference and is about to return. -/
def User.found : User → Bool
  | .leave found => found
  | .idle | .get | .find | .look | .getNotZero | .put | .remove | .unlock | .destroy => false

theorem User.idle_found : User.idle.found = false := rfl

theorem User.idle_releases : User.idle.releases = false := rfl

namespace Table

/-- The references that calls of the thread `u` brought it. -/
def brought (s : Table) (u : Nat) : Nat :=
  s.results.countP (fun r => r.1 == u && r.2.brings) + if (s.users u).found then 1 else 0

/-- The references that calls of the thread `u` took away, up to the one whose release callback
is under way. -/
def taken (s : Table) (u : Nat) : Nat :=
  s.results.countP (fun r => r.1 == u && r.2.takes) + if (s.users u).releases then 1 else 0

/-- The thread `u` hands a reference to another one. -/
def Label.handedBy (u : Nat) : Label → Bool
  | .hand t _ => t == u
  | .get _ | .find _ | .put _ | .turn .. => false

/-- A reference is handed to the thread `u`. -/
def Label.handedTo (u : Nat) : Label → Bool
  | .hand _ v => v == u
  | .get _ | .find _ | .put _ | .turn .. => false

/-- After the steps `ls` from `start t`, each thread holds the first reference, if it is `t`, those
it was handed and those its calls brought, less those it handed on and those its puts took away;
one put may still have to unlock the mutex. -/
def Balanced (t : Nat) (ls : List Label) (s : Table) : Prop :=
  ∀ u, s.counter.refs.count u + s.taken u + (if s.counter.pcs u = .unlock then 1 else 0) +
      ls.countP (Label.handedBy u) =
    (if u = t then 1 else 0) + s.brought u + ls.countP (Label.handedTo u)

/-- Each reference that an operation of the counter brought or took away is one of a call. -/
structure Recorded (s : Table) : Prop where
  brought : ∀ u, s.counter.returns.countP (Return.brings u) = s.brought u
  taken : ∀ u, s.counter.returns.countP (Return.takes u) = s.taken u

variable {b : Backend} {s s' : Table} {t : Nat}

/-! ## What a user's step records -/

theorem goto_brought {user : User} (h : user.found = (s.users t).found) (u : Nat) :
    (s.goto t user).brought u = s.brought u := by
  by_cases hu : u = t
  · simp [brought, goto, hu, h]
  · simp [brought, goto, hu]

theorem goto_taken {user : User} (h : user.releases = (s.users t).releases) (u : Nat) :
    (s.goto t user).taken u = s.taken u := by
  by_cases hu : u = t
  · simp [taken, goto, hu, h]
  · simp [taken, goto, hu]

theorem finish_brought {result : Result} (h : result.brings = (s.users t).found) (u : Nat) :
    (s.finish t result).brought u = s.brought u := by
  by_cases hu : u = t
  · simp [brought, finish, goto, hu, h, List.countP_cons, User.idle_found]
  · simp [brought, finish, goto, hu, Ne.symm hu]

theorem finish_taken {result : Result} (h : result.takes = (s.users t).releases) (u : Nat) :
    (s.finish t result).taken u = s.taken u := by
  by_cases hu : u = t
  · simp [taken, finish, goto, hu, h, List.countP_cons, User.idle_releases]
  · simp [taken, finish, goto, hu, Ne.symm hu]

/-- Neither side has a reference more or less. -/
theorem Recorded.kept (h : Recorded s) (returns : s'.counter.returns = s.counter.returns)
    (brought : ∀ u, s'.brought u = s.brought u) (taken : ∀ u, s'.taken u = s.taken u) :
    Recorded s' where
  brought u := by rw [returns, brought, h.brought]
  taken u := by rw [returns, taken, h.taken]

/-- A statement beside the counter's operations. -/
theorem Recorded.goes {c : State} {user : User} (h : Recorded s)
    (returns : c.returns = s.counter.returns) (found : user.found = (s.users t).found)
    (releases : user.releases = (s.users t).releases) :
    Recorded ((s.setCounter c).goto t user) :=
  h.kept returns (goto_brought (s := s.setCounter c) found)
    (goto_taken (s := s.setCounter c) releases)

theorem Recorded.ends {c : State} {result : Result} (h : Recorded s)
    (returns : c.returns = s.counter.returns) (brings : result.brings = (s.users t).found)
    (takes : result.takes = (s.users t).releases) :
    Recorded ((s.setCounter c).finish t result) :=
  h.kept returns (finish_brought (s := s.setCounter c) brings)
    (finish_taken (s := s.setCounter c) takes)

/-- An operation of the counter returns, and the user's side has its reference too. -/
theorem Recorded.returned {r : Return} (h : Recorded s)
    (returns : s'.counter.returns = r :: s.counter.returns)
    (brought : ∀ u, s'.brought u = s.brought u + if r.brings u then 1 else 0)
    (taken : ∀ u, s'.taken u = s.taken u + if r.takes u then 1 else 0) : Recorded s' where
  brought u := by rw [returns, List.countP_cons, brought, h.brought]
  taken u := by rw [returns, List.countP_cons, taken, h.taken]

/-- An operation of the counter returns, and the call goes on. -/
theorem Recorded.returned_goes {c : State} {op : Op} {result : Bool} {user : User}
    (h : Recorded s) (returns : c.returns = ⟨t, op, result⟩ :: s.counter.returns)
    (before : (s.users t).found = false ∧ (s.users t).releases = false)
    (found : user.found = (!op.isDec && result)) (releases : user.releases = op.isDec) :
    Recorded ((s.setCounter c).goto t user) := by
  refine h.returned returns ?_ ?_
  · intro u
    by_cases hu : u = t
    · simp [Table.brought, goto, setCounter, hu, Return.brings, before.1, found]
    · simp [Table.brought, goto, setCounter, hu, Ne.symm hu, Return.brings]
  · intro u
    by_cases hu : u = t
    · simp [Table.taken, goto, setCounter, hu, Return.takes, before.2, releases]
    · simp [Table.taken, goto, setCounter, hu, Ne.symm hu, Return.takes]

/-- An operation of the counter returns, and the call with it. -/
theorem Recorded.returned_ends {c : State} {op : Op} {returned : Bool} {result : Result}
    (h : Recorded s) (returns : c.returns = ⟨t, op, returned⟩ :: s.counter.returns)
    (before : (s.users t).found = false ∧ (s.users t).releases = false)
    (brings : result.brings = (!op.isDec && returned)) (takes : result.takes = op.isDec) :
    Recorded ((s.setCounter c).finish t result) := by
  refine h.returned returns ?_ ?_
  · intro u
    by_cases hu : u = t
    · simp [Table.brought, finish, goto, setCounter, hu, Return.brings, before.1, brings,
        List.countP_cons, User.idle_found]
    · simp [Table.brought, finish, goto, setCounter, hu, Ne.symm hu, Return.brings]
  · intro u
    by_cases hu : u = t
    · simp [Table.taken, finish, goto, setCounter, hu, Return.takes, before.2, takes,
        List.countP_cons, User.idle_releases]
    · simp [Table.taken, finish, goto, setCounter, hu, Ne.symm hu, Return.takes]

/-! ## Steps -/

theorem recorded_going {c : State} (h : Recorded s) (returns : c.returns = s.counter.returns)
    (going : c.pcs t ≠ .idle) : Recorded (s.landing t c) := by
  rw [landing_goto going]
  exact h.goes returns rfl rfl

theorem before_put (user : s.users t = .put) :
    (s.users t).found = false ∧ (s.users t).releases = false := by
  rw [user]
  exact ⟨rfl, rfl⟩

theorem operate_recorded {spurious : Bool} (hi : Inv s) (hr : Recorded s)
    (hb : s.counter.refs.length ≤ refcountMax) (hb' : s'.counter.refs.length ≤ refcountMax)
    (h : s.operate b t spurious = some s') : Recorded s' := by
  obtain ⟨c, took, -, rfl⟩ := operate_took hi hb hb' h
  cases took with
  | inc hpc =>
    have user := user_of_inc hi hpc
    rw [landing_ret, resume_get user]
    exact hr.returned_ends rfl (by rw [user]; exact ⟨rfl, rfl⟩) rfl rfl
  | refuse hpc dead =>
    have := hi.lookups t (user_of_reads hi hpc)
    omega
  | reads old hpc => exact recorded_going hr rfl (by simp [State.goto])
  | revive hpc =>
    have user := user_of_reads hi hpc
    rw [landing_ret, resume_getNotZero user]
    exact hr.returned_goes rfl (by rw [user]; exact ⟨rfl, rfl⟩) rfl rfl
  | compares value hpc => exact recorded_going hr rfl (by simp [State.goto])
  | lower hpc =>
    have user := user_of_put hi (puts_of_drops hpc)
    rw [landing_ret, resume_put user, if_neg Bool.false_ne_true]
    exact hr.returned_ends rfl (before_put user) rfl rfl
  | waits hpc => exact recorded_going hr rfl (by simp [State.goto])
  | enter hpc => exact recorded_going hr rfl (by simp [State.goto])
  | last locked hpc =>
    have user := user_of_put hi (by rw [hpc]; rfl)
    have own := hi.own user
    rw [hpc] at own
    obtain ⟨rfl, -⟩ := own.locked
    show Recorded (s.landing t (((s.counter.drop t).store 0).finish t (.ret .decAndMutexLock true)))
    rw [landing_ret, resume_put user, if_pos rfl]
    exact hr.returned_goes rfl (before_put user) rfl rfl
  | more locked hpc =>
    have user := user_of_put hi (by rw [hpc]; rfl)
    have own := hi.own user
    rw [hpc] at own
    obtain ⟨rfl, -⟩ := own.locked
    refine recorded_going hr rfl ?_
    rw [show (((s.counter.drop t).store (s.counter.value - 1)).finish t
      (decReturn true false)).pcs t = .unlock from goto_pcs_self _ t .unlock]
    decide
  | unlock hpc =>
    have user := user_of_put hi (by rw [hpc]; rfl)
    rw [landing_ret, resume_put user, if_neg Bool.false_ne_true]
    exact hr.returned_ends rfl (before_put user) rfl rfl

theorem call_returns {c c' : State} {op : Op} (h : Ref.step b c (.call t op) = some c') :
    c'.returns = c.returns := by
  simp only [Ref.step, Option.ite_none_right_eq_some, Option.some.injEq] at h
  obtain ⟨-, rfl⟩ := h
  rfl

theorem turn_recorded {spurious : Bool} (hi : Inv s) (hr : Recorded s)
    (hb : s.counter.refs.length ≤ refcountMax) (hb' : s'.counter.refs.length ≤ refcountMax)
    (h : s.turn b t spurious = some s') : Recorded s' := by
  unfold turn at h
  cases user : s.users t with
  | idle =>
    rw [user] at h
    cases h
  | get | getNotZero | put =>
    rw [user] at h
    exact operate_recorded hi hr hb hb' h
  | find =>
    simp only [user, Option.map_eq_some_iff] at h
    obtain ⟨m, hm, rfl⟩ := h
    obtain ⟨c, hstep, rfl⟩ := within_eq hm
    obtain ⟨-, rfl⟩ := lock_alone hstep
    exact hr.goes rfl (by rw [user]; rfl) (by rw [user]; rfl)
  | look =>
    rw [user] at h
    by_cases listed : s.listed = true
    · simp only [if_pos listed, Option.map_eq_some_iff] at h
      obtain ⟨m, hm, rfl⟩ := h
      obtain ⟨c, hstep, rfl⟩ := within_eq hm
      exact hr.goes (call_returns hstep) (by rw [user]; rfl) (by rw [user]; rfl)
    · simp only [if_neg listed, Option.some.injEq] at h
      obtain rfl := h
      exact hr.goes (c := s.counter) rfl (by rw [user]; rfl) (by rw [user]; rfl)
  | leave found =>
    simp only [user, Option.map_eq_some_iff] at h
    obtain ⟨m, hm, rfl⟩ := h
    obtain ⟨c, hstep, rfl⟩ := within_eq hm
    obtain ⟨-, rfl⟩ := unlock_alone hstep
    exact hr.ends rfl (by rw [user]; rfl) (by rw [user]; rfl)
  | remove =>
    simp only [user, Option.some.injEq] at h
    obtain rfl := h
    have same : Recorded { s with listed := false } := ⟨hr.brought, hr.taken⟩
    exact same.goes (c := s.counter) rfl (by rw [user]; rfl) (by rw [user]; rfl)
  | unlock =>
    simp only [user, Option.map_eq_some_iff] at h
    obtain ⟨m, hm, rfl⟩ := h
    obtain ⟨c, hstep, rfl⟩ := within_eq hm
    obtain ⟨-, rfl⟩ := unlock_alone hstep
    exact hr.goes rfl (by rw [user]; rfl) (by rw [user]; rfl)
  | destroy =>
    simp only [user, Option.some.injEq] at h
    obtain rfl := h
    have same : Recorded { s with destroyed := s.destroyed + 1 } := ⟨hr.brought, hr.taken⟩
    exact same.ends (c := s.counter) rfl (by rw [user]; rfl) (by rw [user]; rfl)

theorem step_recorded {l : Label} (hi : Inv s) (hr : Recorded s)
    (hb : s.counter.refs.length ≤ refcountMax) (hb' : s'.counter.refs.length ≤ refcountMax)
    (h : s.step b l = some s') : Recorded s' := by
  cases l with
  | get t | put t =>
    simp only [step, Option.ite_none_right_eq_some, Option.map_eq_some_iff] at h
    obtain ⟨user, m, hm, rfl⟩ := h
    obtain ⟨c, hstep, rfl⟩ := within_eq hm
    exact hr.goes (call_returns hstep) (by rw [user]; rfl) (by rw [user]; rfl)
  | find t =>
    simp only [step, Option.ite_none_right_eq_some, Option.some.injEq] at h
    obtain ⟨user, rfl⟩ := h
    exact hr.goes (c := s.counter) rfl (by rw [user]; rfl) (by rw [user]; rfl)
  | hand t u =>
    simp only [step, Option.ite_none_right_eq_some] at h
    obtain ⟨user, hm⟩ := h
    obtain ⟨c, hstep, rfl⟩ := within_eq hm
    simp only [Ref.step, Option.ite_none_right_eq_some, Option.some.injEq] at hstep
    obtain ⟨-, rfl⟩ := hstep
    exact hr.kept rfl (fun _ => rfl) fun _ => rfl
  | turn t spurious => exact turn_recorded hi hr hb hb' h

/-! ## The counter's system -/

theorem resume_counter (s : Table) (t : Nat) (result : Bool) :
    (s.resume t result).counter = s.counter := by
  unfold resume
  split
  · rfl
  · rfl
  · split <;> rfl
  all_goals rfl

theorem operate_counter {spurious : Bool} (h : s.operate b t spurious = some s') :
    Ref.turn b t spurious s.counter = some s'.counter := by
  unfold operate at h
  obtain ⟨c, hturn, rfl⟩ := Option.map_eq_some_iff.1 h
  rw [hturn]
  dsimp only
  split
  · rw [resume_counter]
    rfl
  · rfl

theorem within_counter {l : Ref.Label} (h : s.within b l = some s') :
    Ref.step b s.counter l = some s'.counter := by
  obtain ⟨c, hstep, rfl⟩ := within_eq h
  exact hstep

/-- The counter's system takes a step of its own, or none, and the same references change hands. -/
theorem step_counter {l : Label} (h : s.step b l = some s') :
    (s'.counter = s.counter ∧ ∀ u, l.handedBy u = false ∧ l.handedTo u = false) ∨
      ∃ l', Ref.step b s.counter l' = some s'.counter ∧
        ∀ u, l'.handedBy u = l.handedBy u ∧ l'.handedTo u = l.handedTo u := by
  cases l with
  | get t | put t =>
    simp only [step, Option.ite_none_right_eq_some, Option.map_eq_some_iff] at h
    obtain ⟨-, m, hm, rfl⟩ := h
    have moved := within_counter hm
    exact .inr ⟨_, moved, fun _ => ⟨rfl, rfl⟩⟩
  | find t =>
    simp only [step, Option.ite_none_right_eq_some, Option.some.injEq] at h
    obtain ⟨-, rfl⟩ := h
    exact .inl ⟨rfl, fun _ => ⟨rfl, rfl⟩⟩
  | hand t u =>
    simp only [step, Option.ite_none_right_eq_some] at h
    have moved := within_counter h.2
    exact .inr ⟨_, moved, fun _ => ⟨rfl, rfl⟩⟩
  | turn t spurious =>
    have turned : s.turn b t spurious = some s' := h
    unfold turn at turned
    cases user : s.users t with
    | idle =>
      rw [user] at turned
      cases turned
    | get | getNotZero | put =>
      rw [user] at turned
      exact .inr ⟨.turn t spurious, operate_counter turned, fun _ => ⟨rfl, rfl⟩⟩
    | find | leave | unlock =>
      simp only [user, Option.map_eq_some_iff] at turned
      obtain ⟨m, hm, rfl⟩ := turned
      have moved := within_counter hm
      exact .inr ⟨_, moved, fun _ => ⟨rfl, rfl⟩⟩
    | look =>
      rw [user] at turned
      by_cases listed : s.listed = true
      · simp only [if_pos listed, Option.map_eq_some_iff] at turned
        obtain ⟨m, hm, rfl⟩ := turned
        have moved := within_counter hm
        exact .inr ⟨_, moved, fun _ => ⟨rfl, rfl⟩⟩
      · simp only [if_neg listed, Option.some.injEq] at turned
        obtain rfl := turned
        exact .inl ⟨rfl, fun _ => ⟨rfl, rfl⟩⟩
    | remove | destroy =>
      simp only [user, Option.some.injEq] at turned
      obtain rfl := turned
      exact .inl ⟨rfl, fun _ => ⟨rfl, rfl⟩⟩

theorem step_account {l : Label} (hi : Inv s) (hb : s.counter.refs.length ≤ refcountMax)
    (hb' : s'.counter.refs.length ≤ refcountMax) (h : s.step b l = some s') (u : Nat) :
    s'.counter.refs.count u + s'.counter.taken u + s.counter.brought u +
        (if l.handedBy u then 1 else 0) =
      s.counter.refs.count u + s.counter.taken u + s'.counter.brought u +
        (if l.handedTo u then 1 else 0) := by
  rcases step_counter h with ⟨same, quiet⟩ | ⟨l', hstep, handed⟩
  · rw [same, (quiet u).1, (quiet u).2]
  · have balance := step_balance hi.counter hb hb' hstep u
    rwa [(handed u).1, (handed u).2] at balance

/-! ## Runs -/

theorem start_recorded (t : Nat) : Recorded (start t) :=
  ⟨fun _ => rfl, fun _ => rfl⟩

theorem run_balanced {ls : List Label}
    (h : Lib.Lts.Throughout (step b) (fun s => s.counter.refs.length ≤ refcountMax) (start t) ls)
    (hrun : Lib.Lts.run (step b) (start t) ls = some s) : Balanced t ls s := by
  intro u
  have each (s : Table) (l : Label) (s' : Table)
      (hi : (Inv s ∧ s.counter.refs.length ≤ refcountMax) ∧ Recorded s)
      (hb' : s'.counter.refs.length ≤ refcountMax) (hstep : s.step b l = some s') :
      ((Inv s' ∧ s'.counter.refs.length ≤ refcountMax) ∧ Recorded s') ∧
        s'.counter.refs.count u + s'.counter.taken u + s.counter.brought u +
            (if l.handedBy u then 1 else 0) =
          s.counter.refs.count u + s.counter.taken u + s'.counter.brought u +
            (if l.handedTo u then 1 else 0) :=
    ⟨⟨⟨step_inv hi.1.1 hi.1.2 hb' hstep, hb'⟩, step_recorded hi.1.1 hi.2 hi.1.2 hb' hstep⟩,
      step_account hi.1.1 hi.1.2 hb' hstep u⟩
  have first : (Inv (start t) ∧ (start t).counter.refs.length ≤ refcountMax) ∧
      Recorded (start t) :=
    ⟨⟨start_inv t, by simp [start, init, refcountMax]⟩, start_recorded t⟩
  have account := Lib.Lts.run_account
    (fun s : Table => s.counter.refs.count u + s.counter.taken u) (fun s => s.counter.brought u)
    (Label.handedBy u) (Label.handedTo u) each first h hrun
  have throughout := (Lib.Lts.eachStep_of_throughout (C := fun _ _ => True)
    (fun s l s' hi hb' hstep => ⟨(each s l s' hi hb' hstep).1, trivial⟩) first h).1
  have recorded : Recorded s := (Lib.Lts.throughout_last throughout hrun).2
  have brought := recorded.brought u
  have taken := recorded.taken u
  have held : (start t).counter.refs.count u = if u = t then 1 else 0 := init_count t u
  have none_taken : (start t).counter.taken u = 0 := by simp [start, init, State.taken]
  have none_brought : (start t).counter.brought u = 0 := by simp [start, init, State.brought]
  rw [held, none_taken, none_brought] at account
  simp only [State.taken, State.brought, brought, taken] at account
  omega

/-- **Lookups are safe.** On every backend and over every interleaving of any
number of threads that take references, drop them with `ct_ref_put_mutex` and
look the object up under the mutex, and never hold more than `refcountMax`: the
counter is not accessed after the object is destroyed, the release callback runs
once, in the put that returns 1, and removes the object while the mutex is held,
the object stays listed while a reference is held and is released when none is,
a lookup that found it listed gets its reference, and no thread is stuck. A thread holds
the references that it was given and that its calls brought it, less those that it gave
away and that its puts took. -/
theorem lookups_safe (b : Backend) (t : Nat) (ls : List Label)
    (h : Lib.Lts.Throughout (step b) (fun s => s.counter.refs.length ≤ refcountMax) (start t) ls) :
    Lib.Lts.Throughout (step b) (Good b) (start t) ls ∧
    Lib.Lts.EachStep (step b) (fun s l => ∀ s', s.step b l = some s' → Finds s l s')
      (start t) ls ∧
    ∀ s, Lib.Lts.run (step b) (start t) ls = some s → Balanced t ls s := by
  have keeps (s : Table) (l : Label) (s' : Table)
      (hi : Inv s ∧ s.counter.refs.length ≤ refcountMax)
      (hb' : s'.counter.refs.length ≤ refcountMax) (hstep : s.step b l = some s') :
      (Inv s' ∧ s'.counter.refs.length ≤ refcountMax) ∧
        ∀ u, s.step b l = some u → Finds s l u := by
    have finds := step_finds hi.1 hi.2 hb' hstep
    refine ⟨⟨step_inv hi.1 hi.2 hb' hstep, hb'⟩, fun u hu => ?_⟩
    obtain rfl : s' = u := Option.some.inj (hstep.symm.trans hu)
    exact finds
  have first : Inv (start t) ∧ (start t).counter.refs.length ≤ refcountMax :=
    ⟨start_inv t, by simp [start, init, refcountMax]⟩
  obtain ⟨inv, finds⟩ := Lib.Lts.eachStep_of_throughout keeps first h
  exact ⟨Lib.Lts.throughout_mono (fun s hs => inv_good hs.1) inv, finds,
    fun s hrun => run_balanced h hrun⟩

/-- A lookup saves the object from a put that waits for the mutex, the next put
releases it, and a late lookup finds it gone. -/
theorem lookups_safe_three_threads :
    Lib.Lts.Throughout (step .gccAtomic) (Good .gccAtomic) (start 0)
      [.find 1, .turn 1 false, .turn 1 false, .put 0, .turn 0 false, .turn 1 false,
        .turn 1 false, .turn 1 false, .turn 0 false, .turn 0 false, .turn 0 false, .put 1,
        .turn 1 false, .turn 1 false, .turn 1 false, .find 2, .turn 1 false, .turn 1 false,
        .turn 2 false, .turn 1 false, .turn 2 false, .turn 2 false] :=
  (lookups_safe .gccAtomic 0 _ (by decide)).1

end Table

end Coter.Ref
