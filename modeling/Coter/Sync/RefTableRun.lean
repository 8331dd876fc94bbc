import Coter.Sync.RefTable
import Coter.Sync.RefTurns

/-!
# Runs with lookups

* `Table.Phase`: the object is alive, being removed, removed or destroyed;
* `Table.Quiet`: a step that leaves the phase as it is;
* `Table.Good`: what holds in every state of a run with at most `refcountMax` references.
-/

namespace Coter.Ref

/-! ## The object's life -/

/-- The thread is in the release callback. -/
def User.releases : User → Bool
  | .remove | .unlock | .destroy => true
  | .idle | .get | .find | .look | .getNotZero | .leave _ | .put => false

namespace Table

variable {b : Backend} {s s' : Table} {t : Nat}

/-- What the thread does with the counter and the mutex. -/
def UserOk (refs : List Nat) (owner : Option Nat) (t : Nat) (pc : Pc) : User → Prop
  | .idle | .find | .destroy => pc = .idle ∧ owner ≠ some t
  | .look | .remove | .unlock => pc = .idle ∧ owner = some t
  | .leave found => pc = .idle ∧ owner = some t ∧ (found = true → t ∈ refs)
  | .get => pc = .inc ∧ owner ≠ some t
  | .getNotZero => pc.readsNotZero = true ∧ owner = some t
  | .put =>
    (pc.drops = true ∨ pc = .lock) ∧ owner ≠ some t ∨
      (pc = .decAndTest true ∨ pc = .unlock) ∧ owner = some t

/-- How far the object's life has come. -/
inductive Phase (s : Table) : Prop
  | alive : 0 < s.counter.value → s.listed = true → s.destroyed = 0 →
      (∀ t, (s.users t).releases = false) → Phase s
  | removing (r : Nat) : s.counter.value = 0 → s.destroyed = 0 → s.users r = .remove →
      (∀ t, t ≠ r → (s.users t).releases = false) → Phase s
  | removed (r : Nat) : s.counter.value = 0 → s.listed = false → s.destroyed = 0 →
      (s.users r = .unlock ∨ s.users r = .destroy) →
      (∀ t, t ≠ r → (s.users t).releases = false) → Phase s
  | destroyed : s.counter.value = 0 → s.listed = false → s.destroyed = 1 →
      (∀ t, (s.users t).releases = false) → Phase s

structure Inv (s : Table) : Prop where
  counter : Ref.Inv s.counter
  threads : ∀ t, UserOk s.counter.refs s.counter.owner t (s.counter.pcs t) (s.users t)
  lookups : ∀ t, s.users t = .getNotZero → 0 < s.counter.value
  phase : s.Phase
  safe : s.useAfterFree = false
  puts : (s.results.map Prod.snd).count (.put 1) = s.destroyed

theorem Inv.own {user : User} (hi : Inv s) (hu : s.users t = user) :
    UserOk s.counter.refs s.counter.owner t (s.counter.pcs t) user :=
  hu ▸ hi.threads t

theorem start_inv (t : Nat) : Inv (start t) where
  counter := init_inv t
  threads u := ⟨rfl, by simp [start, init]⟩
  lookups u h := by cases h
  phase := .alive (Nat.zero_lt_one) rfl rfl fun _ => rfl
  safe := rfl
  puts := rfl

/-- A thread that may touch the object keeps it alive. -/
theorem alive_of_pos (hi : Inv s) (pos : 0 < s.counter.value) :
    s.listed = true ∧ s.destroyed = 0 ∧ ∀ t, (s.users t).releases = false := by
  cases hi.phase with
  | alive _ listed undestroyed quiet => exact ⟨listed, undestroyed, quiet⟩
  | removing _ dead | removed _ dead | destroyed dead => omega

theorem pos_of_mem (hi : Inv s) (holds : t ∈ s.counter.refs) : 0 < s.counter.value :=
  hi.counter.counts ▸ List.length_pos_of_mem holds

theorem pos_of_accesses (hi : Inv s) (h : (s.counter.pcs t).accesses = true) :
    0 < s.counter.value := by
  have ok := hi.counter.threads t
  have user := hi.threads t
  cases hpc : s.counter.pcs t with
  | idle | lock | unlock =>
    rw [hpc] at h
    cases h
  | inc =>
    rw [hpc] at ok
    exact pos_of_mem hi ok
  | decAndTest | decAndMutexLock | decAndMutexLockCas =>
    rw [hpc] at ok
    exact pos_of_mem hi ok.1
  | saturate =>
    rw [hpc] at ok
    exact ok.elim
  | incNotZero | incNotZeroCas =>
    apply hi.lookups t
    rw [hpc] at user
    cases hu : s.users t <;> rw [hu] at user <;> simp_all [UserOk, Pc.drops]

/-! ## Steps that leave the phase as it is -/

theorem UserOk.frame {refs refs' : List Nat} {owner owner' : Option Nat} {pc : Pc} {user : User}
    (hr : t ∈ refs → t ∈ refs') (ho : owner' = some t ↔ owner = some t)
    (h : UserOk refs owner t pc user) : UserOk refs' owner' t pc user := by
  cases user with
  | idle | find | destroy | get => exact ⟨h.1, mt ho.1 h.2⟩
  | look | remove | unlock | getNotZero => exact ⟨h.1, ho.2 h.2⟩
  | leave found => exact ⟨h.1, ho.2 h.2.1, fun hf => hr (h.2.2 hf)⟩
  | put =>
    cases h with
    | inl outside => exact .inl ⟨outside.1, mt ho.1 outside.2⟩
    | inr inside => exact .inr ⟨inside.1, ho.2 inside.2⟩

/-- Only the thread that moves has to be looked at again. -/
theorem threads_of_alone (hi : Inv s) (alone : Alone s.counter s'.counter t)
    (users : ∀ u, u ≠ t → s'.users u = s.users u)
    (own : UserOk s'.counter.refs s'.counter.owner t (s'.counter.pcs t) (s'.users t)) :
    ∀ u, UserOk s'.counter.refs s'.counter.owner u (s'.counter.pcs u) (s'.users u) := by
  intro u
  by_cases hu : u = t
  · subst hu
    exact own
  · rw [alone.pcs u hu, users u hu]
    exact (hi.threads u).frame (alone.refs u hu) (alone.owner u hu)

structure Quiet (s s' : Table) (t : Nat) : Prop where
  alone : Alone s.counter s'.counter t
  users : ∀ u, u ≠ t → s'.users u = s.users u
  before : (s.users t).releases = false
  after : (s'.users t).releases = false
  dead : s'.counter.value = 0 ↔ s.counter.value = 0
  listed : s'.listed = s.listed
  destroyed : s'.destroyed = s.destroyed
  useAfterFree : s'.useAfterFree = s.useAfterFree
  puts : (s'.results.map Prod.snd).count (.put 1) = (s.results.map Prod.snd).count (.put 1)

theorem Quiet.releases (q : Quiet s s' t) (u : Nat) :
    (s'.users u).releases = (s.users u).releases := by
  by_cases hu : u = t
  · rw [hu, q.before, q.after]
  · rw [q.users u hu]

/-- The thread that runs the release callback is not the one that moves. -/
theorem Quiet.same (q : Quiet s s' t) {r : Nat} (h : (s.users r).releases = true) :
    s'.users r = s.users r := by
  apply q.users
  rintro rfl
  rw [q.before] at h
  cases h

theorem Quiet.phase (q : Quiet s s' t) (h : s.Phase) : s'.Phase := by
  have listed := q.listed
  have destroyed := q.destroyed
  have releases := q.releases
  cases h with
  | alive pos hl hd quiet =>
    have pos' : 0 < s'.counter.value := by
      have := q.dead
      omega
    exact .alive pos' (listed.trans hl) (destroyed.trans hd) fun u => (releases u).trans (quiet u)
  | removing r dead hd hr others =>
    have stays := q.same (r := r) (by rw [hr]; rfl)
    exact .removing r (q.dead.2 dead) (destroyed.trans hd) (stays.trans hr) fun u hu =>
      (releases u).trans (others u hu)
  | removed r dead hl hd hr others =>
    have stays : s'.users r = s.users r := by
      apply q.same
      cases hr with
      | inl h => rw [h]; rfl
      | inr h => rw [h]; rfl
    exact .removed r (q.dead.2 dead) (listed.trans hl) (destroyed.trans hd) (stays ▸ hr) fun u hu =>
      (releases u).trans (others u hu)
  | destroyed dead hl hd quiet =>
    exact .destroyed (q.dead.2 dead) (listed.trans hl) (destroyed.trans hd) fun u =>
      (releases u).trans (quiet u)

theorem Quiet.inv (q : Quiet s s' t) (hi : Inv s) (counter : Ref.Inv s'.counter)
    (own : UserOk s'.counter.refs s'.counter.owner t (s'.counter.pcs t) (s'.users t))
    (lookup : s'.users t = .getNotZero → 0 < s.counter.value) : Inv s' where
  counter := counter
  threads := threads_of_alone hi q.alone q.users own
  lookups u hu := by
    have dead := q.dead
    have pos : 0 < s.counter.value := by
      by_cases heq : u = t
      · exact lookup (heq ▸ hu)
      · exact hi.lookups u (q.users u heq ▸ hu)
    omega
  phase := q.phase hi.phase
  safe := q.useAfterFree.trans hi.safe
  puts := (q.puts.trans hi.puts).trans q.destroyed.symm

theorem goto_users_self (s : Table) (t : Nat) (user : User) : (s.goto t user).users t = user := by
  simp [goto]

theorem goto_users_other (s : Table) {t u : Nat} (user : User) (hu : u ≠ t) :
    (s.goto t user).users u = s.users u := by
  simp [goto, hu]

theorem finish_users_self (s : Table) (t : Nat) (result : Result) :
    (s.finish t result).users t = .idle :=
  goto_users_self s t .idle

theorem goto_self (s : Table) (t : Nat) : s.goto t (s.users t) = s := by
  unfold goto
  congr 1
  funext u
  split
  · rename_i h
    rw [h]
  · rfl

theorem quiet_goto {c : State} {user : User} (alone : Alone s.counter c t)
    (dead : c.value = 0 ↔ s.counter.value = 0) (before : (s.users t).releases = false)
    (after : user.releases = false) : Quiet s ((s.setCounter c).goto t user) t where
  alone := alone
  users u hu := goto_users_other _ user hu
  before := before
  after := by rw [goto_users_self, after]
  dead := dead
  listed := rfl
  destroyed := rfl
  useAfterFree := rfl
  puts := rfl

theorem quiet_finish {c : State} {result : Result} (alone : Alone s.counter c t)
    (dead : c.value = 0 ↔ s.counter.value = 0) (before : (s.users t).releases = false)
    (hresult : result ≠ .put 1) : Quiet s ((s.setCounter c).finish t result) t where
  alone := alone
  users u hu := goto_users_other _ .idle hu
  before := before
  after := by
    rw [finish_users_self]
    rfl
  dead := dead
  listed := rfl
  destroyed := rfl
  useAfterFree := rfl
  puts := List.count_cons_of_ne hresult

/-! ## The counter's operations -/

theorem user_of_inc (hi : Inv s) (h : s.counter.pcs t = .inc) : s.users t = .get := by
  have user := hi.threads t
  rw [h] at user
  cases hu : s.users t <;> rw [hu] at user <;> simp_all [UserOk, Pc.readsNotZero, Pc.drops]

theorem user_of_reads (hi : Inv s) (h : (s.counter.pcs t).readsNotZero = true) :
    s.users t = .getNotZero := by
  have user := hi.threads t
  cases hpc : s.counter.pcs t with
  | incNotZero | incNotZeroCas =>
    rw [hpc] at user
    cases hu : s.users t <;> rw [hu] at user <;> simp_all [UserOk, Pc.drops]
  | idle | inc | decAndMutexLock | decAndMutexLockCas | lock | decAndTest | unlock | saturate =>
    rw [hpc] at h
    cases h

theorem user_of_put (hi : Inv s) (h : (s.counter.pcs t).puts = true) : s.users t = .put := by
  have user := hi.threads t
  cases hpc : s.counter.pcs t with
  | decAndMutexLock | decAndMutexLockCas | lock | decAndTest | unlock =>
    rw [hpc] at user
    cases hu : s.users t <;> rw [hu] at user <;> simp_all [UserOk, Pc.readsNotZero]
  | idle | inc | incNotZero | incNotZeroCas | saturate =>
    rw [hpc] at h
    cases h

theorem touch_eq (h : s.destroyed = 0) : s.touch = s := by
  have unchanged : (s.useAfterFree || decide (0 < s.destroyed)) = s.useAfterFree := by simp [h]
  unfold touch
  rw [unchanged]

/-- The table after the counter's operation moved to `c`. -/
def landing (s : Table) (t : Nat) (c : State) : Table :=
  if c.pcs t = .idle then (s.setCounter c).resume t (c.returns.head?.any Return.result)
  else s.setCounter c

theorem landing_counter (s : Table) (t : Nat) (c : State) : (s.landing t c).counter = c := by
  unfold landing resume
  split
  · split
    · rfl
    · rfl
    · split <;> rfl
    all_goals rfl
  · rfl

/-- The counter is never accessed once the object is destroyed. -/
theorem operate_took {spurious : Bool} (hi : Inv s) (hb : s.counter.refs.length ≤ refcountMax)
    (hb' : s'.counter.refs.length ≤ refcountMax) (h : s.operate b t spurious = some s') :
    ∃ c, Took s.counter t c ∧ Ref.Inv c ∧ s' = s.landing t c := by
  unfold operate at h
  obtain ⟨c, hturn, hs'⟩ := Option.map_eq_some_iff.1 h
  have untouched : (if (s.counter.pcs t).accesses then s.touch else s) = s := by
    split
    · rename_i accesses
      exact touch_eq (alive_of_pos hi (pos_of_accesses hi accesses)).2.1
    · rfl
  rw [untouched] at hs'
  have landed : s.landing t c = s' := hs'
  have hc : c.refs.length ≤ refcountMax := by
    rw [← landed, landing_counter] at hb'
    exact hb'
  have counter := move_inv hi.counter (turn_move hi.counter hb hc hturn)
  exact ⟨c, turn_took hi.counter hb hc hturn, counter, landed.symm⟩

theorem landing_ret {c : State} {op : Op} {result : Bool} :
    s.landing t (c.finish t (.ret op result)) =
      (s.setCounter (c.finish t (.ret op result))).resume t result := by
  unfold landing
  rw [if_pos (show (c.finish t (.ret op result)).pcs t = .idle from goto_pcs_self c t .idle)]
  rfl

theorem landing_goto {c : State} (h : c.pcs t ≠ .idle) :
    s.landing t c = (s.setCounter c).goto t (s.users t) := by
  unfold landing
  rw [if_neg h]
  exact (goto_self (s.setCounter c) t).symm

theorem raised_dead {c : State} (pos : 0 < c.value) (after : After) :
    (((c.acquire t).store (c.value + 1)).finish t after).value = 0 ↔ c.value = 0 := by
  rw [finish_value]
  show c.value + 1 = 0 ↔ c.value = 0
  omega

theorem lowered_dead {c : State} (more : 1 < c.value) (after : After) :
    (((c.drop t).store (c.value - 1)).finish t after).value = 0 ↔ c.value = 0 := by
  rw [finish_value]
  show c.value - 1 = 0 ↔ c.value = 0
  omega

theorem resume_get {c : State} {result : Bool} (hu : s.users t = .get) :
    (s.setCounter c).resume t result = (s.setCounter c).finish t .get := by
  simp [resume, setCounter, hu]

theorem resume_getNotZero {c : State} {result : Bool} (hu : s.users t = .getNotZero) :
    (s.setCounter c).resume t result = (s.setCounter c).goto t (.leave result) := by
  simp [resume, setCounter, hu]

theorem resume_put {c : State} {result : Bool} (hu : s.users t = .put) :
    (s.setCounter c).resume t result =
      if result then (s.setCounter c).goto t .remove else (s.setCounter c).finish t (.put 0) := by
  simp [resume, setCounter, hu]

theorem puts_of_drops {pc : Pc} (h : pc.drops = true) : pc.puts = true := by
  cases pc <;> first | rfl | cases h

theorem UserOk.outside {refs : List Nat} {owner : Option Nat} {pc : Pc}
    (own : UserOk refs owner t pc .put) (h : pc.drops = true ∨ pc = .lock) : owner ≠ some t := by
  cases own with
  | inl outside => exact outside.2
  | inr inside =>
    obtain ⟨rfl | rfl, -⟩ := inside
    · simp [Pc.drops] at h
    · simp [Pc.drops] at h

theorem UserOk.locked {refs : List Nat} {owner : Option Nat} {locked : Bool}
    (own : UserOk refs owner t (.decAndTest locked) .put) : locked = true ∧ owner = some t := by
  simpa [UserOk, Pc.drops] using own

/-- The operation goes on. -/
theorem going_inv {c : State} (hi : Inv s) (took : Took s.counter t c) (counter : Ref.Inv c)
    (dead : c.value = 0 ↔ s.counter.value = 0) (before : (s.users t).releases = false)
    (going : c.pcs t ≠ .idle) (own : UserOk c.refs c.owner t (c.pcs t) (s.users t)) :
    Inv (s.landing t c) := by
  rw [landing_goto going]
  have q : Quiet s ((s.setCounter c).goto t (s.users t)) t :=
    quiet_goto (took.alone hi.counter) dead before before
  apply q.inv hi counter
  · rw [goto_users_self]
    exact own
  · rw [goto_users_self]
    exact hi.lookups t

/-- A put that does not drop the last reference. -/
theorem put_zero_inv {c : State} (hi : Inv s) (user : s.users t = .put)
    (took : Took s.counter t (c.finish t (.ret .decAndMutexLock false)))
    (counter : Ref.Inv (c.finish t (.ret .decAndMutexLock false)))
    (dead : c.value = 0 ↔ s.counter.value = 0) (outside : c.owner ≠ some t) :
    Inv (s.landing t (c.finish t (.ret .decAndMutexLock false))) := by
  have before : (s.users t).releases = false := by rw [user]; rfl
  rw [landing_ret, resume_put user, if_neg Bool.false_ne_true]
  have q :
      Quiet s ((s.setCounter (c.finish t (.ret .decAndMutexLock false))).finish t (.put 0)) t :=
    quiet_finish (took.alone hi.counter) dead before (by decide)
  apply q.inv hi counter
  · rw [finish_users_self]
    exact ⟨goto_pcs_self c t .idle, outside⟩
  · intro h
    rw [finish_users_self] at h
    cases h

/-- The last reference goes while the mutex is held, so no lookup is under way. -/
theorem last_inv (hi : Inv s) (user : s.users t = .put) (inside : s.counter.owner = some t)
    (hone : s.counter.value = 1)
    (took : Took s.counter t
      (((s.counter.drop t).store 0).finish t (.ret .decAndMutexLock true)))
    (counter : Ref.Inv (((s.counter.drop t).store 0).finish t (.ret .decAndMutexLock true))) :
    Inv (s.landing t (((s.counter.drop t).store 0).finish t (.ret .decAndMutexLock true))) := by
  obtain ⟨-, undestroyed, quiet⟩ := alive_of_pos hi (by omega)
  rw [landing_ret, resume_put user, if_pos rfl]
  constructor
  · exact counter
  · apply threads_of_alone hi (took.alone hi.counter)
    · exact fun u hu => goto_users_other _ .remove hu
    · rw [goto_users_self]
      exact ⟨goto_pcs_self _ t .idle, inside⟩
  · intro u hu
    by_cases heq : u = t
    · rw [heq, goto_users_self] at hu
      cases hu
    · rw [goto_users_other _ _ heq] at hu
      have owner : s.counter.owner = some u := by
        have ok := hi.threads u
        rw [show s.users u = .getNotZero from hu] at ok
        exact ok.2
      exact absurd (Option.some.inj (owner.symm.trans inside)) heq
  · refine .removing t rfl undestroyed (goto_users_self _ t .remove) fun u hu => ?_
    rw [goto_users_other _ _ hu]
    exact quiet u
  · exact hi.safe
  · exact hi.puts

theorem operate_inv {spurious : Bool} (hi : Inv s) (hb : s.counter.refs.length ≤ refcountMax)
    (hb' : s'.counter.refs.length ≤ refcountMax) (h : s.operate b t spurious = some s') :
    Inv s' := by
  obtain ⟨c, took, counter, rfl⟩ := operate_took hi hb hb' h
  have ok := hi.counter.threads t
  have step := took
  cases step with
  | inc hpc =>
    have user := user_of_inc hi hpc
    have own := hi.own user
    rw [hpc] at ok
    have pos := pos_of_mem hi ok
    have before : (s.users t).releases = false := by rw [user]; rfl
    have q : Quiet s ((s.setCounter _).finish t .get) t :=
      quiet_finish (took.alone hi.counter) (raised_dead pos _) before (by decide)
    rw [landing_ret, resume_get user]
    apply q.inv hi counter
    · rw [finish_users_self]
      exact ⟨goto_pcs_self _ t .idle, own.2⟩
    · intro hu
      rw [finish_users_self] at hu
      cases hu
  | refuse hpc dead =>
    have := hi.lookups t (user_of_reads hi hpc)
    omega
  | reads old hpc =>
    have user := user_of_reads hi hpc
    have own := hi.own user
    apply going_inv hi took counter Iff.rfl (by rw [user]; rfl)
    · simp [State.goto]
    · rw [user, goto_pcs_self]
      exact ⟨rfl, own.2⟩
  | revive hpc =>
    have user := user_of_reads hi hpc
    have own := hi.own user
    have pos := hi.lookups t user
    have before : (s.users t).releases = false := by rw [user]; rfl
    have q : Quiet s ((s.setCounter _).goto t (.leave true)) t :=
      quiet_goto (took.alone hi.counter) (raised_dead pos _) before rfl
    rw [landing_ret, resume_getNotZero user]
    apply q.inv hi counter
    · rw [goto_users_self]
      exact ⟨goto_pcs_self _ t .idle, own.2, fun _ => List.mem_cons_self⟩
    · intro hu
      rw [goto_users_self] at hu
      cases hu
  | compares value hpc =>
    have user := user_of_put hi (puts_of_drops hpc)
    have own := hi.own user
    apply going_inv hi took counter Iff.rfl (by rw [user]; rfl)
    · simp [State.goto]
    · rw [user, goto_pcs_self]
      exact .inl ⟨.inl rfl, own.outside (.inl hpc)⟩
  | lower hpc more =>
    have user := user_of_put hi (puts_of_drops hpc)
    have own := hi.own user
    have dead := lowered_dead (t := t) more .unlock
    rw [finish_value] at dead
    exact put_zero_inv hi user took counter dead (own.outside (.inl hpc))
  | waits hpc =>
    have user := user_of_put hi (puts_of_drops hpc)
    have own := hi.own user
    apply going_inv hi took counter Iff.rfl (by rw [user]; rfl)
    · simp [State.goto]
    · rw [user, goto_pcs_self]
      exact .inl ⟨.inr rfl, own.outside (.inl hpc)⟩
  | enter hpc free =>
    have user := user_of_put hi (by rw [hpc]; rfl)
    apply going_inv hi took counter Iff.rfl (by rw [user]; rfl)
    · simp [State.goto]
    · rw [user, goto_pcs_self]
      exact .inr ⟨.inl rfl, rfl⟩
  | last locked hpc hone =>
    have user := user_of_put hi (by rw [hpc]; rfl)
    have own := hi.own user
    rw [hpc] at own
    obtain ⟨rfl, inside⟩ := own.locked
    exact last_inv hi user inside hone took counter
  | more locked hpc more =>
    have user := user_of_put hi (by rw [hpc]; rfl)
    have own := hi.own user
    rw [hpc] at own
    obtain ⟨rfl, inside⟩ := own.locked
    have unlocks (c : State) : (c.finish t (decReturn true false)).pcs t = .unlock :=
      goto_pcs_self c t .unlock
    apply going_inv hi took counter (lowered_dead more .unlock) (by rw [user]; rfl)
    · rw [unlocks]
      decide
    · rw [user, unlocks]
      exact .inr ⟨.inr rfl, inside⟩
  | unlock hpc =>
    have user := user_of_put hi (by rw [hpc]; rfl)
    exact put_zero_inv hi user took counter Iff.rfl (by simp)

/-! ## The other statements -/

theorem alone_of_keeps {c c' : State} (hpcs : c'.pcs = c.pcs)
    (hr : ∀ u, u ≠ t → u ∈ c.refs → u ∈ c'.refs)
    (ho : ∀ u, u ≠ t → (c'.owner = some u ↔ c.owner = some u)) : Alone c c' t where
  pcs u _ := by rw [hpcs]
  refs := hr
  owner := ho

theorem within_eq {l : Ref.Label} (h : s.within b l = some s') :
    ∃ c, Ref.step b s.counter l = some c ∧ s' = s.setCounter c := by
  obtain ⟨c, hstep, hs'⟩ := Option.map_eq_some_iff.1 h
  exact ⟨c, hstep, hs'.symm⟩

theorem counter_inv {c : State} {l : Ref.Label} (hi : Inv s)
    (hb : s.counter.refs.length ≤ refcountMax) (hb' : c.refs.length ≤ refcountMax)
    (hstep : Ref.step b s.counter l = some c) : Ref.Inv c :=
  move_inv hi.counter (step_move hi.counter hb hb' hstep)

theorem call_inv {op : Op} {user : User} {c : State} (hi : Inv s)
    (hb : s.counter.refs.length ≤ refcountMax) (hb' : c.refs.length ≤ refcountMax)
    (hstep : Ref.step b s.counter (.call t op) = some c) (before : (s.users t).releases = false)
    (after : user.releases = false)
    (own : UserOk s.counter.refs s.counter.owner t op.start user)
    (lookup : user = .getNotZero → 0 < s.counter.value) :
    Inv ((s.setCounter c).goto t user) := by
  have counter := counter_inv hi hb hb' hstep
  simp only [Ref.step, Option.ite_none_right_eq_some, Option.some.injEq] at hstep
  obtain ⟨-, rfl⟩ := hstep
  have alone : Alone s.counter (s.counter.goto t op.start) t :=
    alone_of_goto rfl (fun _ _ hm => hm) (fun _ _ => Iff.rfl)
  apply (quiet_goto alone Iff.rfl before after).inv hi counter
  · rw [goto_users_self]
    exact (goto_pcs_self s.counter t op.start).symm ▸ own
  · rw [goto_users_self]
    exact lookup

theorem hand_inv {u : Nat} {c : State} (hi : Inv s) (hb : s.counter.refs.length ≤ refcountMax)
    (hb' : c.refs.length ≤ refcountMax) (hstep : Ref.step b s.counter (.hand t u) = some c)
    (user : s.users t = .idle) : Inv (s.setCounter c) := by
  have counter := counter_inv hi hb hb' hstep
  have own := hi.own user
  simp only [Ref.step, Option.ite_none_right_eq_some, Option.some.injEq] at hstep
  obtain ⟨-, rfl⟩ := hstep
  have alone : Alone s.counter ((s.counter.drop t).acquire u) t :=
    alone_of_keeps rfl (fun v hv hm => List.mem_cons_of_mem u ((List.mem_erase_of_ne hv).2 hm))
      (fun _ _ => Iff.rfl)
  have before : (s.users t).releases = false := by rw [user]; rfl
  have q := quiet_goto (s := s) alone Iff.rfl before before
  rw [show (s.setCounter ((s.counter.drop t).acquire u)).goto t (s.users t) =
    s.setCounter ((s.counter.drop t).acquire u) from goto_self (s.setCounter _) t] at q
  apply q.inv hi counter
  · show UserOk _ s.counter.owner t (s.counter.pcs t) (s.users t)
    rw [user]
    exact own
  · exact hi.lookups t

/-- The thread inside the mutex found the object listed: nobody is removing it. -/
theorem look_alive (hi : Inv s) (user : s.users t = .look) (listed : s.listed = true) :
    0 < s.counter.value := by
  have own := hi.own user
  cases hi.phase with
  | alive pos => exact pos
  | removed _ _ unlisted | destroyed _ unlisted =>
    rw [unlisted] at listed
    cases listed
  | removing r dead hd hr =>
    have remover := hi.own hr
    obtain rfl : r = t := Option.some.inj (remover.2.symm.trans own.2)
    rw [user] at hr
    cases hr

/-- What holds while the thread `t` is in the release callback. -/
theorem releasing (hi : Inv s) (h : (s.users t).releases = true) :
    s.counter.value = 0 ∧ s.destroyed = 0 ∧ (∀ u, u ≠ t → (s.users u).releases = false) ∧
      (s.users t ≠ .remove → s.listed = false) := by
  have none_quiet (quiet : ∀ u, (s.users u).releases = false) : False := by
    rw [quiet t] at h
    cases h
  have same {r : Nat} (others : ∀ u, u ≠ r → (s.users u).releases = false) : r = t := by
    by_contra hne
    rw [others t (Ne.symm hne)] at h
    cases h
  cases hi.phase with
  | alive _ _ _ quiet => exact (none_quiet quiet).elim
  | destroyed _ _ _ quiet => exact (none_quiet quiet).elim
  | removing r dead hd hr others =>
    obtain rfl := same others
    exact ⟨dead, hd, others, fun hne => absurd hr hne⟩
  | removed r dead unlisted hd _ others =>
    obtain rfl := same others
    exact ⟨dead, hd, others, fun _ => unlisted⟩

theorem no_lookups (hi : Inv s) (dead : s.counter.value = 0) (u : Nat) :
    s.users u ≠ .getNotZero := by
  intro hu
  have := hi.lookups u hu
  omega

theorem alone_refl (c : State) (t : Nat) : Alone c c t :=
  alone_of_keeps rfl (fun _ _ hm => hm) (fun _ _ => Iff.rfl)

/-- `ct_mutex_lock` and `ct_mutex_unlock` outside the counter's operations. -/
theorem lock_alone {c c' : State} (h : Ref.step b c (.lock t) = some c') :
    Alone c c' t ∧ c' = { c with owner := some t } := by
  simp only [Ref.step, Option.ite_none_right_eq_some, Option.some.injEq] at h
  obtain ⟨⟨-, free⟩, rfl⟩ := h
  refine ⟨alone_of_keeps rfl (fun _ _ hm => hm) fun u hu => ?_, rfl⟩
  have := owner_other hu (Or.inl free)
  exact ⟨fun h => absurd (Option.some.inj h).symm hu, fun h => absurd h this⟩

theorem unlock_alone {c c' : State} (h : Ref.step b c (.unlock t) = some c') :
    Alone c c' t ∧ c' = { c with owner := none } := by
  simp only [Ref.step, Option.ite_none_right_eq_some, Option.some.injEq] at h
  obtain ⟨⟨-, inside⟩, rfl⟩ := h
  refine ⟨alone_of_keeps rfl (fun _ _ hm => hm) fun u hu => ?_, rfl⟩
  have := owner_other hu (Or.inr inside)
  exact ⟨fun h => absurd h (by simp), fun h => absurd h this⟩

theorem find_inv (hi : Inv s) (user : s.users t = .idle) : Inv (s.goto t .find) := by
  have own := hi.own user
  have before : (s.users t).releases = false := by rw [user]; rfl
  have q : Quiet s (s.goto t .find) t := quiet_goto (alone_refl s.counter t) Iff.rfl before rfl
  apply q.inv hi hi.counter
  · rw [goto_users_self]
    exact own
  · rw [goto_users_self]
    simp

theorem lock_inv {c : State} (hi : Inv s) (hb : s.counter.refs.length ≤ refcountMax)
    (hb' : c.refs.length ≤ refcountMax) (hstep : Ref.step b s.counter (.lock t) = some c)
    (user : s.users t = .find) : Inv ((s.setCounter c).goto t .look) := by
  have counter := counter_inv hi hb hb' hstep
  obtain ⟨alone, rfl⟩ := lock_alone hstep
  have own := hi.own user
  have before : (s.users t).releases = false := by rw [user]; rfl
  apply (quiet_goto alone Iff.rfl before rfl).inv hi counter
  · rw [goto_users_self]
    exact ⟨own.1, rfl⟩
  · rw [goto_users_self]
    simp

theorem unlisted_inv (hi : Inv s) (user : s.users t = .look) :
    Inv (s.goto t (.leave false)) := by
  have own := hi.own user
  have before : (s.users t).releases = false := by rw [user]; rfl
  have q : Quiet s (s.goto t (.leave false)) t :=
    quiet_goto (alone_refl s.counter t) Iff.rfl before rfl
  apply q.inv hi hi.counter
  · rw [goto_users_self]
    exact ⟨own.1, own.2, by simp⟩
  · rw [goto_users_self]
    simp

theorem leave_inv {c : State} {found : Bool} (hi : Inv s)
    (hb : s.counter.refs.length ≤ refcountMax) (hb' : c.refs.length ≤ refcountMax)
    (hstep : Ref.step b s.counter (.unlock t) = some c) (user : s.users t = .leave found) :
    Inv ((s.setCounter c).finish t (.find found)) := by
  have counter := counter_inv hi hb hb' hstep
  obtain ⟨alone, rfl⟩ := unlock_alone hstep
  have own := hi.own user
  have before : (s.users t).releases = false := by rw [user]; rfl
  have q : Quiet s ((s.setCounter { s.counter with owner := none }).finish t (.find found)) t :=
    quiet_finish alone Iff.rfl before (by simp)
  have outside : ({ s.counter with owner := none } : State).owner ≠ some t := by simp
  apply q.inv hi counter
  · rw [finish_users_self]
    exact ⟨own.1, outside⟩
  · rw [finish_users_self]
    simp

/-! ## The release callback -/

/-- The callback moves the object's life on, while no lookup is under way. -/
theorem releases_inv (hi : Inv s) (dead : s.counter.value = 0)
    (users : ∀ u, u ≠ t → s'.users u = s.users u) (counter : Ref.Inv s'.counter)
    (alone : Alone s.counter s'.counter t)
    (own : UserOk s'.counter.refs s'.counter.owner t (s'.counter.pcs t) (s'.users t))
    (after : s'.users t ≠ .getNotZero) (phase : s'.Phase)
    (safe : s'.useAfterFree = s.useAfterFree)
    (puts : (s'.results.map Prod.snd).count (.put 1) = s'.destroyed) : Inv s' where
  counter := counter
  threads := threads_of_alone hi alone users own
  lookups u hu := by
    by_cases heq : u = t
    · subst heq
      exact absurd hu after
    · rw [users u heq] at hu
      exact absurd hu (no_lookups hi dead u)
  phase := phase
  safe := safe.trans hi.safe
  puts := puts

theorem remove_inv (hi : Inv s) (user : s.users t = .remove) :
    Inv ({ s with listed := false }.goto t .unlock) := by
  obtain ⟨dead, undestroyed, others, -⟩ := releasing hi (t := t) (by rw [user]; rfl)
  have users (u : Nat) (hu : u ≠ t) :
      ({ s with listed := false }.goto t .unlock).users u = s.users u :=
    goto_users_other _ .unlock hu
  have unlocks := goto_users_self { s with listed := false } t .unlock
  have own := hi.own user
  apply releases_inv hi dead users hi.counter (alone_refl s.counter t)
  · rw [unlocks]
    exact own
  · rw [unlocks]
    simp
  · exact .removed t dead rfl undestroyed (.inl unlocks) fun u hu => users u hu ▸ others u hu
  · rfl
  · exact hi.puts

theorem unlock_inv {c : State} (hi : Inv s) (hb : s.counter.refs.length ≤ refcountMax)
    (hb' : c.refs.length ≤ refcountMax) (hstep : Ref.step b s.counter (.unlock t) = some c)
    (user : s.users t = .unlock) : Inv ((s.setCounter c).goto t .destroy) := by
  obtain ⟨dead, undestroyed, others, unlisted⟩ := releasing hi (t := t) (by rw [user]; rfl)
  have counter := counter_inv hi hb hb' hstep
  obtain ⟨alone, rfl⟩ := unlock_alone hstep
  have users (u : Nat) (hu : u ≠ t) :
      ((s.setCounter { s.counter with owner := none }).goto t .destroy).users u = s.users u :=
    goto_users_other _ .destroy hu
  have destroys := goto_users_self (s.setCounter { s.counter with owner := none }) t .destroy
  have outside : ({ s.counter with owner := none } : State).owner ≠ some t := by simp
  have own := hi.own user
  rw [user] at unlisted
  apply releases_inv hi dead users counter alone
  · rw [destroys]
    exact ⟨own.1, outside⟩
  · rw [destroys]
    simp
  · exact .removed t dead (unlisted (by simp)) undestroyed (.inr destroys) fun u hu =>
      users u hu ▸ others u hu
  · rfl
  · exact hi.puts

theorem destroy_inv (hi : Inv s) (user : s.users t = .destroy) :
    Inv ({ s with destroyed := s.destroyed + 1 }.finish t (.put 1)) := by
  obtain ⟨dead, undestroyed, others, unlisted⟩ := releasing hi (t := t) (by rw [user]; rfl)
  have users (u : Nat) (hu : u ≠ t) :
      ({ s with destroyed := s.destroyed + 1 }.finish t (.put 1)).users u = s.users u :=
    goto_users_other _ .idle hu
  have ends := finish_users_self { s with destroyed := s.destroyed + 1 } t (.put 1)
  have own := hi.own user
  rw [user] at unlisted
  apply releases_inv hi dead users hi.counter (alone_refl s.counter t)
  · rw [ends]
    exact own
  · rw [ends]
    simp
  · refine .destroyed dead (unlisted (by simp)) (congrArg (· + 1) undestroyed) fun u => ?_
    by_cases heq : u = t
    · rw [heq, ends]
      rfl
    · rw [users u heq]
      exact others u heq
  · rfl
  · exact List.count_cons_self.trans (congrArg (· + 1) hi.puts)

theorem turn_inv {spurious : Bool} (hi : Inv s) (hb : s.counter.refs.length ≤ refcountMax)
    (hb' : s'.counter.refs.length ≤ refcountMax) (h : s.turn b t spurious = some s') : Inv s' := by
  unfold turn at h
  cases user : s.users t with
  | idle =>
    rw [user] at h
    cases h
  | get | getNotZero | put =>
    rw [user] at h
    exact operate_inv hi hb hb' h
  | find =>
    simp only [user, Option.map_eq_some_iff] at h
    obtain ⟨m, hm, rfl⟩ := h
    obtain ⟨c, hstep, rfl⟩ := within_eq hm
    exact lock_inv hi hb hb' hstep user
  | look =>
    rw [user] at h
    by_cases listed : s.listed = true
    · simp only [if_pos listed, Option.map_eq_some_iff] at h
      obtain ⟨m, hm, rfl⟩ := h
      obtain ⟨c, hstep, rfl⟩ := within_eq hm
      have own := hi.own user
      apply call_inv hi hb hb' hstep (by rw [user]; rfl) rfl
      · exact ⟨rfl, own.2⟩
      · exact fun _ => look_alive hi user listed
    · simp only [if_neg listed, Option.some.injEq] at h
      obtain rfl := h
      exact unlisted_inv hi user
  | leave found =>
    simp only [user, Option.map_eq_some_iff] at h
    obtain ⟨m, hm, rfl⟩ := h
    obtain ⟨c, hstep, rfl⟩ := within_eq hm
    exact leave_inv hi hb hb' hstep user
  | remove =>
    simp only [user, Option.some.injEq] at h
    obtain rfl := h
    exact remove_inv hi user
  | unlock =>
    simp only [user, Option.map_eq_some_iff] at h
    obtain ⟨m, hm, rfl⟩ := h
    obtain ⟨c, hstep, rfl⟩ := within_eq hm
    exact unlock_inv hi hb hb' hstep user
  | destroy =>
    simp only [user, Option.some.injEq] at h
    obtain rfl := h
    exact destroy_inv hi user

theorem step_inv {l : Label} (hi : Inv s) (hb : s.counter.refs.length ≤ refcountMax)
    (hb' : s'.counter.refs.length ≤ refcountMax) (h : s.step b l = some s') : Inv s' := by
  cases l with
  | get t =>
    simp only [step, Option.ite_none_right_eq_some, Option.map_eq_some_iff] at h
    obtain ⟨user, m, hm, rfl⟩ := h
    obtain ⟨c, hstep, rfl⟩ := within_eq hm
    have own := hi.own user
    exact call_inv hi hb hb' hstep (by rw [user]; rfl) rfl ⟨rfl, own.2⟩ (by simp)
  | find t =>
    simp only [step, Option.ite_none_right_eq_some, Option.some.injEq] at h
    obtain ⟨user, rfl⟩ := h
    exact find_inv hi user
  | put t =>
    simp only [step, Option.ite_none_right_eq_some, Option.map_eq_some_iff] at h
    obtain ⟨user, m, hm, rfl⟩ := h
    obtain ⟨c, hstep, rfl⟩ := within_eq hm
    have own := hi.own user
    exact call_inv hi hb hb' hstep (by rw [user]; rfl) rfl (.inl ⟨.inl rfl, own.2⟩) (by simp)
  | hand t u =>
    simp only [step, Option.ite_none_right_eq_some] at h
    obtain ⟨user, hm⟩ := h
    obtain ⟨c, hstep, rfl⟩ := within_eq hm
    exact hand_inv hi hb hb' hstep user
  | turn t spurious => exact turn_inv hi hb hb' h

/-! ## Runs -/

theorem counter_enabled {c : State} (busy : c.pcs t ≠ .idle)
    (free : c.pcs t = .lock → c.owner = none) : ∃ c', Ref.turn b t false c = some c' := by
  unfold Ref.turn
  cases hpc : c.pcs t with
  | idle => exact absurd hpc busy
  | lock =>
    simp only [if_pos (free hpc)]
    exact ⟨_, rfl⟩
  | inc | incNotZero | incNotZeroCas | decAndTest | decAndMutexLock | decAndMutexLockCas | unlock
  | saturate => exact ⟨_, rfl⟩

theorem operate_enabled (busy : s.counter.pcs t ≠ .idle)
    (free : s.counter.pcs t = .lock → s.counter.owner = none) :
    ∃ s', s.operate b t false = some s' := by
  obtain ⟨c, hturn⟩ := counter_enabled (b := b) busy free
  unfold operate
  rw [hturn]
  exact ⟨_, rfl⟩

/-- Only the mutex makes a thread wait. -/
theorem turn_enabled (hi : Inv s) (busy : s.users t ≠ .idle)
    (free : s.counter.owner = none ∨ s.counter.owner = some t) :
    ∃ s', s.turn b t false = some s' := by
  unfold turn
  cases user : s.users t with
  | idle => exact absurd user busy
  | get =>
    have own := hi.own user
    apply operate_enabled
    · simp [own.1]
    · simp [own.1]
  | getNotZero =>
    have own := hi.own user
    apply operate_enabled
    · intro h
      simp [h, Pc.readsNotZero, UserOk] at own
    · intro h
      simp [h, Pc.readsNotZero, UserOk] at own
  | put =>
    have own := hi.own user
    apply operate_enabled
    · intro h
      simp [h, Pc.drops, UserOk] at own
    · intro h
      have outside := own.outside (.inr h)
      exact free.resolve_right outside
  | find =>
    have own := hi.own user
    have unowned := free.resolve_right own.2
    simp [within, Ref.step, own.1, unowned]
  | look =>
    have own := hi.own user
    by_cases listed : s.listed = true
    · simp [listed, within, Ref.step, own.1, mayCall]
    · simp [listed]
  | leave found =>
    have own := hi.own user
    simp [within, Ref.step, own.1, own.2.1]
  | unlock =>
    have own := hi.own user
    simp [within, Ref.step, own.1, own.2]
  | remove | destroy => exact ⟨_, rfl⟩

/-- A thread inside the mutex is never idle, so it can go on. -/
theorem progress (hi : Inv s) (busy : s.users t ≠ .idle) :
    ∃ u s', s.step b (.turn u false) = some s' := by
  cases howner : s.counter.owner with
  | none => exact ⟨t, turn_enabled hi busy (.inl howner)⟩
  | some u =>
    have inside : s.users u ≠ .idle := by
      intro hu
      have own := hi.own hu
      exact own.2 howner
    exact ⟨u, turn_enabled hi inside (.inr howner)⟩

structure Good (b : Backend) (s : Table) : Prop where
  safe : s.useAfterFree = false
  once : s.destroyed ≤ 1
  puts : (s.results.map Prod.snd).count (.put 1) = s.destroyed
  alive : s.counter.refs ≠ [] → s.listed = true ∧ s.destroyed = 0
  unlisted : s.destroyed = 1 → s.listed = false
  released : s.counter.refs = [] → s.destroyed = 1 ∨ ∃ t, (s.users t).releases = true
  guarded : s.counter.refs = [] → s.listed = true → s.counter.owner ≠ none
  found : ∀ t, s.users t = .leave true → t ∈ s.counter.refs
  progress : ∀ t, s.users t ≠ .idle → ∃ u s', s.step b (.turn u false) = some s'

theorem inv_good (hi : Inv s) : Good b s := by
  have hc := hi.counter.counts
  have dead (h : s.counter.refs = []) : s.counter.value = 0 := by
    rw [hc, h]
    rfl
  constructor
  · exact hi.safe
  · cases hi.phase <;> omega
  · exact hi.puts
  · intro held
    have pos : 0 < s.counter.value := hc ▸ List.length_pos_iff.2 held
    obtain ⟨listed, undestroyed, -⟩ := alive_of_pos hi pos
    exact ⟨listed, undestroyed⟩
  · intro hd
    cases hi.phase with
    | alive _ _ undestroyed | removing _ _ undestroyed | removed _ _ _ undestroyed => omega
    | destroyed _ unlisted => exact unlisted
  · intro h
    cases hi.phase with
    | alive pos => exact absurd (dead h) (by omega)
    | removing r _ _ hr => exact .inr ⟨r, by rw [hr]; rfl⟩
    | removed r _ _ _ hr =>
      refine .inr ⟨r, ?_⟩
      cases hr with
      | inl hr => rw [hr]; rfl
      | inr hr => rw [hr]; rfl
    | destroyed _ _ hd => exact .inl hd
  · intro h listed
    cases hi.phase with
    | alive pos => exact absurd (dead h) (by omega)
    | removing r _ _ hr =>
      have own := hi.own hr
      rw [own.2]
      exact Option.some_ne_none r
    | removed _ _ unlisted | destroyed _ unlisted =>
      rw [unlisted] at listed
      cases listed
  · intro u hu
    have own := hi.own hu
    exact own.2.2 rfl
  · exact fun u busy => progress hi busy

/-- A lookup that found the object listed gets a reference. -/
def Finds (s : Table) (l : Label) (s' : Table) : Prop :=
  ∀ t spurious, l = .turn t spurious → s.users t = .getNotZero →
    s'.users t = .getNotZero ∨ s'.users t = .leave true

theorem operate_finds {spurious : Bool} (hi : Inv s) (hb : s.counter.refs.length ≤ refcountMax)
    (hb' : s'.counter.refs.length ≤ refcountMax) (user : s.users t = .getNotZero)
    (h : s.operate b t spurious = some s') :
    s'.users t = .getNotZero ∨ s'.users t = .leave true := by
  obtain ⟨c, took, -, rfl⟩ := operate_took hi hb hb' h
  have other (puts : (s.counter.pcs t).puts = true) : False := by
    have := (user_of_put hi puts).symm.trans user
    cases this
  cases took with
  | inc hpc => cases (user_of_inc hi hpc).symm.trans user
  | refuse _ dead => exact absurd user (no_lookups hi dead t)
  | reads old =>
    rw [landing_goto (by simp [State.goto]), goto_users_self]
    exact .inl user
  | revive =>
    rw [landing_ret, resume_getNotZero user, goto_users_self]
    exact .inr rfl
  | compares _ hpc | lower hpc | waits hpc => exact (other (puts_of_drops hpc)).elim
  | enter hpc | last _ hpc | more _ hpc | unlock hpc => exact (other (by rw [hpc]; rfl)).elim

theorem step_finds {l : Label} (hi : Inv s) (hb : s.counter.refs.length ≤ refcountMax)
    (hb' : s'.counter.refs.length ≤ refcountMax) (h : s.step b l = some s') : Finds s l s' := by
  rintro t spurious rfl user
  have operates : s.operate b t spurious = some s' := by
    have turned : s.turn b t spurious = some s' := h
    unfold turn at turned
    rw [user] at turned
    exact turned
  exact operate_finds hi hb hb' user operates

end Table

end Coter.Ref
