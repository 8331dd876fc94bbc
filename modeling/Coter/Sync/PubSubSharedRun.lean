import Coter.Sync.PubSubShared

/-!
# Runs of the bus among threads

* `moves_inv`: the steps of the lock;
* `turn_inv`: the steps under it;
* `pubsub_linear`: over every run the calls are those of a bus that one thread has to itself.
-/

namespace Coter.PubSub.Bus

open Lib.ByteOrder Lib.Lts Lib.Machine Lib.Sections
open RwLock (Role Roles)

variable {host : Endian} {n t : Nat} {s s' : Bus} {op : Request} {sec : Section} {pc : Pc}

/-- What holds over a run. The calls whose work is done are those of a sequential run, and while
nobody writes, the array is what they leave; a writer is alone with it; a publication on its way
has called what it would call on this array; and no turn faults. -/
structure Good (host : Endian) (s : Bus) : Prop where
  linear : ∃ settled, exec (bus host).whole init (s.done.map Prod.fst) =
    .ok (s.done.map Prod.snd, settled) ∧ ((∀ t, (s.pc t).role ≠ .writes) → s.a = settled)
  alone : ∀ t u, t ≠ u → (s.pc t).role = .writes → (s.pc u).role ≠ .reads ∧ (s.pc u).role ≠ .writes
  calls : ∀ t op type data i calls, s.pc t = .inside op (.publishes i calls) →
    op.1 = .publish type data → ∃ rest, publish host s.a type data = .ok (0, calls ++ rest)
  safe : ∀ t op sec, s.pc t = .inside op sec → ∃ x, PubSub.turn host op.1 s.a sec = .ok x

structure Inv (host : Endian) (n : Nat) (s : Bus) : Prop where
  lock : RwLock.Inv s.lock
  roles : Roles s.lock fun t => (s.pc t).role
  bounded : ∀ t, (s.pc t).role ≠ .idle → t < n
  sections : ∃ settled, Lib.Sections.Inv (bus host) init (fun t => (s.pc t).section) s.a settled s.done

/-! ## Threads -/

theorem update_role (f : Nat → Pc) (t : Nat) (pc : Pc) :
    (fun u => (Function.update f t pc u).role) = Function.update (fun u => (f u).role) t pc.role := by
  funext u
  by_cases hu : u = t
  · rw [hu, Function.update_self, Function.update_self]
  · rw [Function.update_of_ne hu, Function.update_of_ne hu]

theorem update_section (f : Nat → Pc) (t : Nat) (pc : Pc) :
    (fun u => (Function.update f t pc u).section) =
      Function.update (fun u => (f u).section) t pc.section := by
  funext u
  by_cases hu : u = t
  · rw [hu, Function.update_self, Function.update_self]
  · rw [Function.update_of_ne hu, Function.update_of_ne hu]

theorem section_role {x : Request × Section} (h : pc.section = some x) :
    pc.role = if x.1.1.writes then .writes else .reads := by
  cases pc with
  | inside op sec =>
    cases h
    rfl
  | outside | locking | unlocks => cases h

/-- The lock keeps writers apart from everybody else. -/
theorem exclusive_of_alone (host : Endian) {f : Nat → Pc} (alone : ∀ t u, t ≠ u → (f t).role = .writes →
    (f u).role ≠ .reads ∧ (f u).role ≠ .writes) :
    Exclusive (bus host).writes fun t => (f t).section := by
  intro t u apart x y ht hu
  by_contra writes
  have hx : (f t).role = .writes := by
    rw [section_role ht]
    exact if_pos (eq_true_of_ne_false writes)
  obtain ⟨noReads, noWrites⟩ := alone t u apart hx
  rw [section_role hu] at noReads noWrites
  split at noReads
  · next writes => exact noWrites (if_pos writes)
  · exact noReads rfl

theorem Inv.alone (i : Inv host n s) : ∀ t u, t ≠ u → (s.pc t).role = .writes →
    (s.pc u).role ≠ .reads ∧ (s.pc u).role ≠ .writes :=
  fun _ _ apart writes => i.roles.alone i.lock writes apart

/-! ## The array -/

/-- A publication calls what lies ahead of it. -/
theorem publishes_ahead {type : BitVec 32} {data : BitVec 64} {a b : CtArray UInt8} {i : Nat}
    {calls : List Call} {out : Int × List Call}
    (h : Leads (PubSub.turn host (.publish type data)) a (.publishes i calls) out b) :
    ∃ rest, out = (0, calls ++ rest) := by
  generalize hsec : Section.publishes i calls = sec at h
  induction h generalizing i calls with
  | ends h =>
    subst hsec
    change publishTurn host type data _ i calls = _ at h
    unfold publishTurn at h
    split at h
    · obtain ⟨sub, -, h⟩ := ok_of_bind h
      split at h
      · split at h <;> cases h
      · cases h
    · cases h
      exact ⟨[], by rw [List.append_nil]⟩
  | goes h rest ih =>
    subst hsec
    change publishTurn host type data _ i calls = _ at h
    unfold publishTurn at h
    split at h
    · obtain ⟨sub, -, h⟩ := ok_of_bind h
      split at h
      · split at h
        · cases h
          obtain ⟨more, out⟩ := ih rfl
          exact ⟨_, by rw [out, List.append_assoc]⟩
        · cases h
          exact ih rfl
      · cases h
        exact ih rfl
    · cases h

/-- What the calls leave is valid, so the next one does not fault. -/
theorem whole_ok {inside : Nat → Option (Request × Section)} {a settled : CtArray UInt8}
    {done : List (Request × (Int × List Call))}
    (i : Lib.Sections.Inv (bus host) init inside a settled done) (op : Request) :
    ∃ out b, (bus host).whole settled op = .ok (out, b) := by
  have keeps (a : CtArray UInt8) (op : Request) (ha : Valid host a) :
      ∃ out b, (bus host).whole a op = .ok (out, b) ∧ True ∧ Valid host b := by
    obtain ⟨out, b, h, -, valid⟩ := step_spec ha op.1
    exact ⟨out, b, h, trivial, valid⟩
  obtain ⟨outs, b, hexec, valid⟩ := exec_of_along
    (along_of_invariant (fun _ ha => ha) keeps (init_valid host) (done.map Prod.fst))
  rw [i.linear] at hexec
  cases hexec
  obtain ⟨out, b, h, -, -⟩ := keeps settled op valid
  exact ⟨out, b, h⟩

theorem Inv.good (i : Inv host n s) : Good host s := by
  obtain ⟨settled, sections⟩ := i.sections
  have quiet (h : ∀ t, (s.pc t).role ≠ .writes) : s.a = settled := by
    refine sections.quiet fun t op sec ht => ?_
    have role := section_role ht
    by_contra writes
    exact h t (role.trans (if_pos (eq_true_of_ne_false writes)))
  constructor
  · exact ⟨settled, sections.linear, quiet⟩
  · exact i.alone
  · intro t op type data k calls hpc publishes
    have ht : (s.pc t).section = some (op, .publishes k calls) := by rw [hpc]; rfl
    have reads : (s.pc t).role = .reads := by rw [section_role ht, publishes]; rfl
    have clean : s.a = settled := by
      refine quiet fun u writes => ?_
      have apart : u ≠ t := by
        rintro rfl
        rw [reads] at writes
        cases writes
      exact (i.alone u t apart writes).1 reads
    obtain ⟨out, b, whole, leads⟩ := sections.ways t op _ ht
    change Leads (PubSub.turn host op.1) _ _ _ _ at leads
    rw [publishes] at leads
    obtain ⟨rest, rfl⟩ := publishes_ahead leads
    refine ⟨rest, ?_⟩
    change PubSub.step host settled op.1 = _ at whole
    rw [publishes] at whole
    obtain ⟨r, hr, h⟩ := ok_of_bind whole
    cases h
    rw [clean]
    exact hr
  · intro t op sec hpc
    exact sections.turns (t := t) (by rw [hpc]; rfl)

/-! ## Steps -/

theorem update_bounded {f : Nat → Role} {r : Role} (bounded : ∀ u, f u ≠ .idle → u < n)
    (ht : t < n) : ∀ u, Function.update f t r u ≠ .idle → u < n := by
  intro u hu
  rw [Function.update_apply] at hu
  split at hu
  · next same => rwa [same]
  · exact bounded u hu

/-- A step of the lock by a thread that is not at work. -/
theorem moves_inv (i : Inv host n s) {l : RwLock.Label} (ht : t < n) (h : s.moves t pc l = some s')
    (roles : ∀ lock, RwLock.step s.lock l = some lock →
      Roles lock (Function.update (fun u => (s.pc u).role) t pc.role))
    (out : (s.pc t).section = none) (first : ∀ op sec, pc.section = some (op, sec) → sec = op.1.first) :
    Inv host n s' := by
  obtain ⟨lock, hlock, rfl⟩ := Option.map_eq_some_iff.1 h
  have inv : RwLock.Inv lock := RwLock.step_inv i.lock hlock
  have roles : Roles lock fun u => (Function.update s.pc t pc u).role := by
    rw [update_role]
    exact roles lock hlock
  obtain ⟨settled, sections⟩ := i.sections
  refine ⟨inv, roles, ?_, settled, ?_⟩
  · intro u hu
    have moved := congrFun (update_role s.pc t pc) u
    dsimp only at hu moved
    rw [moved] at hu
    exact update_bounded i.bounded ht u hu
  · have ex := exclusive_of_alone host fun _ _ apart writes => roles.alone inv writes apart
    dsimp only
    rw [update_section] at ex ⊢
    cases hsec : pc.section with
    | none =>
      rw [← out, Function.update_eq_self]
      exact sections
    | some x =>
      obtain ⟨op, sec⟩ := x
      obtain rfl := first op sec hsec
      rw [hsec] at ex
      exact sections.enter ex out (whole_ok sections op)

theorem locked_role (op : Request) (turn : RwLock.Turn) : (locked op turn).role =
    turn.role (if op.1.writes then .waitsWrite else .waitsRead)
      (if op.1.writes then .writes else .reads) := by
  cases turn <;> rfl

theorem locked_first (op : Request) (turn : RwLock.Turn) (op' : Request) (sec : Section)
    (h : (locked op turn).section = some (op', sec)) : sec = op'.1.first := by
  cases turn with
  | returns code =>
    cases h
    rfl
  | waits => cases h

theorem call_inv (i : Inv host n s) (ht : t < n) (small : n < 2 ^ 31) (outside : s.pc t = .outside)
    (h : s.call t op = some s') : Inv host n s' := by
  have idle : (s.pc t).role = .idle := by rw [outside]; rfl
  have out : (s.pc t).section = none := by rw [outside]; rfl
  unfold call at h
  split at h
  · next writes =>
    refine moves_inv i ht h (fun lock hlock => ?_) out (locked_first op _)
    rw [locked_role, if_pos writes, if_pos writes]
    exact RwLock.wrlock_step i.lock i.roles i.bounded ht small idle hlock
  · next reads =>
    refine moves_inv i ht h (fun lock hlock => ?_) out (locked_first op _)
    rw [locked_role, if_neg reads, if_neg reads]
    exact RwLock.rdlock_step i.lock i.roles i.bounded ht small idle hlock

theorem resume_inv (i : Inv host n s) (small : n < 2 ^ 31) (locking : s.pc t = .locking op)
    (h : s.resume t op = some s') : Inv host n s' := by
  have role : (s.pc t).role = if op.1.writes then .waitsWrite else .waitsRead := by rw [locking]; rfl
  have out : (s.pc t).section = none := by rw [locking]; rfl
  have ht : t < n := i.bounded t (by rw [role]; split <;> nofun)
  unfold resume at h
  split at h
  · next writes =>
    refine moves_inv i ht h (fun lock hlock => ?_) out (locked_first op _)
    rw [if_pos writes] at role
    rw [locked_role, if_pos writes, if_pos writes]
    exact RwLock.resumeWriter_step i.lock i.roles i.bounded small role hlock
  · next reads =>
    refine moves_inv i ht h (fun lock hlock => ?_) out (locked_first op _)
    rw [if_neg reads] at role
    rw [locked_role, if_neg reads, if_neg reads]
    exact RwLock.resumeReader_step i.lock i.roles i.bounded small role hlock

theorem wake_inv (i : Inv host n s) (locking : s.pc t = .locking op)
    (h : s.moves t (.locking op) (if op.1.writes then .wakeWriter t else .wakeReader t) = some s') :
    Inv host n s' := by
  have role : (s.pc t).role = if op.1.writes then .waitsWrite else .waitsRead := by rw [locking]; rfl
  have ht : t < n := i.bounded t (by rw [role]; split <;> nofun)
  refine moves_inv i ht h (fun lock hlock => ?_) (by rw [locking]; rfl)
    (fun _ _ none => by cases none)
  have same : Function.update (fun u => (s.pc u).role) t (Pc.locking op).role =
      fun u => (s.pc u).role := by
    rw [← locking, Function.update_eq_self]
  rw [same]
  split at hlock
  · simp only [RwLock.step] at hlock
    split at hlock
    · next blocked =>
      cases hlock
      exact RwLock.wakeWriter_roles i.roles blocked
    · cases hlock
  · simp only [RwLock.step] at hlock
    split at hlock
    · next blocked =>
      cases hlock
      exact RwLock.wakeReader_roles i.roles blocked
    · cases hlock

theorem unlock_inv (i : Inv host n s) {write : Bool} {woke : Option Nat}
    (unlocks : s.pc t = .unlocks write)
    (h : s.moves t .outside (if write then .wrunlock t woke else .rdunlock t woke) = some s') :
    Inv host n s' := by
  have role : (s.pc t).role = if write then .writes else .reads := by rw [unlocks]; rfl
  have ht : t < n := i.bounded t (by rw [role]; split <;> nofun)
  refine moves_inv i ht h (fun lock hlock => ?_) (by rw [unlocks]; rfl)
    (fun _ _ none => by cases none)
  cases write with
  | true => exact RwLock.wrunlock_step i.lock i.roles role hlock
  | false => exact RwLock.rdunlock_step i.lock i.roles role hlock

/-- A turn under the lock, which the thread keeps. -/
theorem turn_inv (i : Inv host n s) (inside : s.pc t = .inside op sec)
    (h : s.turn host t op sec = some s') : Inv host n s' := by
  have ht : (s.pc t).section = some (op, sec) := by rw [inside]; rfl
  have role := section_role ht
  have ex := exclusive_of_alone host i.alone
  obtain ⟨settled, sections⟩ := i.sections
  have kept (pc : Pc) (same : pc.role = (s.pc t).role) :
      (fun u => (Function.update s.pc t pc u).role) = fun u => (s.pc u).role := by
    rw [update_role, same, Function.update_eq_self]
  have stays (pc : Pc) (same : pc.role = (s.pc t).role) (u : Nat)
      (hu : (Function.update s.pc t pc u).role ≠ .idle) : u < n := by
    have moved := congrFun (kept pc same) u
    rw [moved] at hu
    exact i.bounded u hu
  unfold turn at h
  split at h
  · next sec' a' turned =>
    cases h
    have same : (Pc.inside op sec').role = (s.pc t).role := role.symm
    refine ⟨i.lock, ?_, stays _ same, settled, ?_⟩
    · dsimp only
      rw [kept _ same]
      exact i.roles
    · dsimp only
      rw [update_section]
      exact sections.goes ex ht turned
  · next out a' turned =>
    cases h
    have same : (Pc.unlocks op.1.writes).role = (s.pc t).role := role.symm
    refine ⟨i.lock, ?_, stays _ same, a', ?_⟩
    · dsimp only
      rw [kept _ same]
      exact i.roles
    · dsimp only
      rw [update_section]
      exact sections.ends ex ht turned
  · cases h

theorem step_inv (i : Inv host n s) (small : n < 2 ^ 31) {l : Label}
    (h : step host n s l = some s') : Inv host n s' := by
  cases l with
  | call t op =>
    simp only [step] at h
    split at h
    · next outside =>
      obtain ⟨ht, h⟩ := Option.ite_none_right_eq_some.1 h
      exact call_inv i ht small outside h
    all_goals cases h
  | wake t =>
    simp only [step] at h
    split at h
    · next locking => exact wake_inv i locking h
    all_goals cases h
  | resume t =>
    simp only [step] at h
    split at h
    · next locking => exact resume_inv i small locking h
    all_goals cases h
  | turn t =>
    simp only [step] at h
    split at h
    · next inside => exact turn_inv i inside h
    all_goals cases h
  | unlock t woke =>
    simp only [step] at h
    split at h
    · next unlocks => exact unlock_inv i unlocks h
    all_goals cases h

/-! ## Runs -/

theorem start_inv (host : Endian) (n : Nat) : Inv host n start where
  lock := RwLock.start_inv
  roles := ⟨fun _ => rfl, fun _ => rfl, fun _ => rfl, fun _ => rfl⟩
  bounded _ h := absurd rfl h
  sections := ⟨init, inv_start fun _ => rfl⟩

/-- **The bus is linearizable.** Fewer than `2 ^ 31` threads publish, subscribe and unsubscribe
in any order, with callbacks of several publications in between. Then over every run the calls
return what they return one after the other, in the order in which their work was done, a
publication calls exactly the entries that were registered while it ran, a writer has the array
to itself, and no access to it faults. -/
theorem pubsub_linear (host : Endian) (n : Nat) (small : n < 2 ^ 31) (ls : List Label) :
    Throughout (step host n) (Good host) start ls :=
  throughout_of_invariant (fun _ _ _ i h => step_inv i small h) (fun _ i => i.good)
    (start_inv host n) ls

/-- A subscription that has no memory, and a publication that the next one waits for. -/
theorem pubsub_linear_two : Throughout (step .little 2) (Good .little) start
    [.call 0 ⟨.subscribe 1 2 3 0 none, rfl⟩, .turn 0, .unlock 0 none,
      .call 1 ⟨.publish 1 4, rfl⟩, .call 0 ⟨.subscribe 1 2 3 0 none, rfl⟩, .turn 1, .unlock 1 (some 0),
      .resume 0, .turn 0, .unlock 0 none] :=
  pubsub_linear .little 2 (by decide) _

end Coter.PubSub.Bus
