import Coter.Sync.RefRun

/-!
# The poisoned reference counter

Here any thread may call anything at any time, so the counter can be damaged.

* `Pinned`: a poisoned counter stays in a band around the poison values, as wide
  as there are operations between their fetch and their store;
* `Drift`: what a step can do to a counter above `refcountMax`;
* `poisoned_runs`: the counter never looks releasable again.
-/

namespace Coter.Ref

/-- Steps without a condition on who may call what. -/
def anyStep (b : Backend) (s : State) : Label → Option State
  | .call t op => if s.pcs t = .idle then some (s.goto t op.start) else none
  | .turn t spurious => turn b t spurious s
  | .lock t => step b s (.lock t)
  | .unlock t => step b s (.unlock t)
  | .hand t u => step b s (.hand t u)

/-- The store comes after a fetch-and-add or a fetch-and-sub. -/
def After.fetched : After → Bool
  | .ret .inc _ | .ret .decAndTest _ | .unlock => true
  | .ret .incNotZero _ | .ret .decAndMutexLock _ => false

/-- Between the fetch of an operation and its store. -/
def Pc.fetched : Pc → Bool
  | .saturate _ after => after.fetched
  | _ => false

/-- The list has every thread that is between its fetch and its store. -/
def InFlight (s : State) (ts : List Nat) : Prop :=
  ∀ t, (s.pcs t).fetched → t ∈ ts

/-- Fewer than 2^29 operations are between their fetch and their store. -/
def Few (s : State) : Prop :=
  ∃ ts : List Nat, ts.length < 2 ^ 29 ∧ InFlight s ts

/-- A call that returns does not report a releasable or a dead counter. -/
def Harmless (s s' : State) : Prop :=
  ∀ t op result, Returns s s' t op result →
    (op.isDec → result = false) ∧ (op = .incNotZero → result = true)

/-! ## Where a thread stands -/

/-- The result that is returned after a store. -/
def After.Safe : After → Prop
  | .ret op result => (op.isDec → result = false) ∧ (op = .incNotZero → result = true)
  | .unlock => True

/-- A thread that is about to exchange has read a valid count, and one that is
about to poison the counter returns nothing that matters. -/
def Pc.Settled : Pc → Prop
  | .incNotZeroCas old => old ≤ refcountMax
  | .decAndMutexLockCas value => value ≤ refcountMax
  | .saturate _ after => after.Safe
  | _ => True

theorem acquire_pcs (s : State) (t : Nat) : (s.acquire t).pcs = s.pcs := rfl

theorem drop_pcs (s : State) (t : Nat) : (s.drop t).pcs = s.pcs := rfl

theorem store_acquire_pcs (s : State) (t value : Nat) :
    ((s.acquire t).store value).pcs = s.pcs := rfl

theorem store_drop_pcs (s : State) (t value : Nat) : ((s.drop t).store value).pcs = s.pcs := rfl

/-- Only the thread `t` has moved. -/
def Lands (s s' : State) (t : Nat) : Prop :=
  ∃ pc : Pc, s'.pcs = (s.goto t pc).pcs ∧ pc.Settled

section Lands

variable {b : Backend} {s m : State} {t : Nat}

theorem lands_goto (pc : Pc) (hm : m.pcs = s.pcs) (h : pc.Settled) : Lands s (m.goto t pc) t :=
  ⟨pc, by simp only [State.goto, hm], h⟩

theorem lands_finish (after : After) (hm : m.pcs = s.pcs) : Lands s (m.finish t after) t := by
  refine ⟨after.pc, ?_, ?_⟩
  · rw [finish_pcs]
    simp only [State.goto, hm]
  · cases after <;> trivial

theorem lands_saturate {type : Saturation} {after : After} (hm : m.pcs = s.pcs)
    (h : after.Safe) : Lands s (m.saturate b t type after) t := by
  cases b with
  | mutex => exact lands_finish after hm
  | gccSync | gccAtomic | win => exact lands_goto _ hm h

/-- A thread that has nothing to do stays where it is. -/
theorem lands_idle (hidle : s.pcs t = .idle) (hm : m.pcs = s.pcs) : Lands s m t := by
  refine ⟨.idle, ?_, trivial⟩
  rw [hm, ← hidle, goto_self]

theorem safe_inc : (After.ret .inc true).Safe := ⟨nofun, nofun⟩

theorem safe_incNotZero : (After.ret .incNotZero true).Safe := ⟨nofun, fun _ => rfl⟩

theorem safe_decAndMutexLock : (After.ret .decAndMutexLock false).Safe := ⟨fun _ => rfl, nofun⟩

theorem safe_decReturn (locked : Bool) : (decReturn locked false).Safe := by
  cases locked with
  | true => trivial
  | false => exact ⟨fun _ => rfl, nofun⟩

theorem incTurn_lands : Lands s (incTurn b t s) t := by
  unfold incTurn
  split
  · exact lands_saturate (store_acquire_pcs s t _) safe_inc
  · split
    · exact lands_saturate (store_acquire_pcs s t _) safe_inc
    · exact lands_finish _ (store_acquire_pcs s t _)

theorem incNotZeroStore_lands : Lands s (incNotZeroStore b t s) t := by
  unfold incNotZeroStore
  split
  · exact lands_saturate (store_acquire_pcs s t _) safe_incNotZero
  · exact lands_finish _ (store_acquire_pcs s t _)

theorem incNotZeroTurn_lands : Lands s (incNotZeroTurn b t s) t := by
  unfold incNotZeroTurn
  split
  · exact lands_finish _ rfl
  · split
    · exact lands_finish _ (acquire_pcs s t)
    · split
      · exact lands_saturate (acquire_pcs s t) safe_incNotZero
      · rename_i valid
        cases b with
        | mutex => exact incNotZeroStore_lands
        | gccSync | gccAtomic | win => exact lands_goto _ rfl (Nat.not_lt.1 valid)

theorem incNotZeroCasTurn_lands {spurious : Bool} {old : Nat} :
    Lands s (incNotZeroCasTurn b spurious t old s) t := by
  unfold incNotZeroCasTurn
  split
  · exact incNotZeroStore_lands
  · exact incNotZeroTurn_lands

theorem decAndTestTurn_lands {locked : Bool} : Lands s (decAndTestTurn b locked t s) t := by
  unfold decAndTestTurn
  split
  · exact lands_finish _ (store_drop_pcs s t _)
  · split
    · exact lands_finish _ (store_drop_pcs s t _)
    · exact lands_saturate (store_drop_pcs s t _) (safe_decReturn locked)

theorem decAndMutexLockTurn_lands : Lands s (decAndMutexLockTurn b t s) t := by
  unfold decAndMutexLockTurn
  split
  · exact lands_finish _ (drop_pcs s t)
  · split
    · exact lands_goto _ rfl trivial
    · split
      · exact lands_saturate (drop_pcs s t) safe_decAndMutexLock
      · rename_i valid
        split
        · exact lands_saturate (drop_pcs s t) safe_decAndMutexLock
        · cases b with
          | mutex => exact lands_finish _ (store_drop_pcs s t _)
          | gccSync | gccAtomic | win => exact lands_goto _ rfl (Nat.not_lt.1 valid)

theorem decAndMutexLockCasTurn_lands {spurious : Bool} {value : Nat} :
    Lands s (decAndMutexLockCasTurn b spurious t value s) t := by
  unfold decAndMutexLockCasTurn
  split
  · exact lands_finish _ (store_drop_pcs s t _)
  · exact decAndMutexLockTurn_lands

theorem turn_lands {s' : State} {spurious : Bool} (h : turn b t spurious s = some s') :
    Lands s s' t := by
  unfold turn at h
  split at h
  · cases h
  · cases h
    exact incTurn_lands
  · cases h
    exact incNotZeroTurn_lands
  · cases h
    exact incNotZeroCasTurn_lands
  · cases h
    exact decAndTestTurn_lands
  · cases h
    exact decAndMutexLockTurn_lands
  · cases h
    exact decAndMutexLockCasTurn_lands
  · split at h
    · cases h
      exact lands_goto _ rfl trivial
    · cases h
  · cases h
    exact lands_finish _ rfl
  · cases h
    exact lands_finish _ rfl

end Lands

/-- The thread that a label moves. -/
def Label.thread : Label → Nat
  | .call t _ | .turn t _ | .lock t | .unlock t | .hand t _ => t

theorem anyStep_lands {b : Backend} {s s' : State} {l : Label} (h : anyStep b s l = some s') :
    Lands s s' l.thread := by
  cases l with
  | call t op =>
    simp only [anyStep, Option.ite_none_right_eq_some, Option.some.injEq] at h
    obtain ⟨-, rfl⟩ := h
    exact lands_goto _ rfl (by cases op <;> trivial)
  | turn t spurious => exact turn_lands h
  | lock t | unlock t | hand t u =>
    simp only [anyStep, step, Option.ite_none_right_eq_some, Option.some.injEq] at h
    obtain ⟨⟨hidle, -⟩, rfl⟩ := h
    exact lands_idle hidle rfl

def Settled (s : State) : Prop := ∀ t, (s.pcs t).Settled

theorem Lands.settled {s s' : State} {t : Nat} (h : Lands s s' t) (hs : Settled s) :
    Settled s' := by
  obtain ⟨pc, hpcs, hpc⟩ := h
  intro u
  rw [hpcs]
  by_cases hu : u = t
  · simpa [State.goto, hu] using hpc
  · simpa [State.goto, hu] using hs u

theorem reachable_settled {b : Backend} {t : Nat} {s : State} {ls : List Label}
    (h : Lib.Lts.run (anyStep b) (init t) ls = some s) : Settled s := by
  have keeps (m : State) (l : Label) (m' : State) (hm : Settled m)
      (hstep : anyStep b m l = some m') : Settled m' :=
    (anyStep_lands hstep).settled hm
  have start : Settled (init t) := fun _ => trivial
  exact Lib.Lts.run_invariant keeps start h

/-! ## Steps on a counter above `refcountMax` -/

/-- Neither a valid count nor about to wrap. -/
def Broken (value : Nat) : Prop := refcountMax < value ∧ value + 1 < 2 ^ 32

/-- What a step makes of the counter: nothing while its thread stays out of
flight, a poison value, or one more or less with its thread now in flight. -/
structure Drift (s s' : State) (t : Nat) : Prop where
  value : (s'.value = s.value ∧ ∀ u, (s.pcs u).fetched → (s'.pcs u).fetched) ∨
    (∃ type, s'.value = poison type) ∨
    ((s'.value = s.value + 1 ∨ s'.value + 1 = s.value) ∧ (s.pcs t).fetched = false ∧
      (s'.pcs t).fetched ∧ ∀ u, u ≠ t → (s.pcs u).fetched → (s'.pcs u).fetched)
  harmless : Harmless s s'

theorem goto_pc (s : State) (t : Nat) (pc : Pc) : (s.goto t pc).pcs t = pc := by
  simp [State.goto]

theorem goto_other (s : State) {t u : Nat} (pc : Pc) (h : u ≠ t) :
    (s.goto t pc).pcs u = s.pcs u := by
  simp [State.goto, h]

theorem harmless_silent {s s' : State} (h : s'.returns = s.returns) : Harmless s s' := by
  intro t op result hr
  rw [Returns, h] at hr
  exact absurd (congrArg List.length hr) (by simp)

theorem harmless_finish {s m : State} {t : Nat} {after : After} (hm : m.returns = s.returns)
    (h : after.Safe) : Harmless s (m.finish t after) := by
  cases after with
  | unlock => exact harmless_silent hm
  | ret op result =>
    intro u op' result' hr
    obtain ⟨rfl, rfl, rfl⟩ : t = u ∧ op = op' ∧ result = result' := by
      simpa [Returns, State.finish, State.goto, hm] using hr
    exact h

theorem stays_in_flight {s s' : State} {t : Nat} {pc : Pc} (hpcs : s'.pcs = (s.goto t pc).pcs)
    (ht : (s.pcs t).fetched = false) (u : Nat) (hu : (s.pcs u).fetched) :
    (s'.pcs u).fetched := by
  have other : u ≠ t := by
    rintro rfl
    rw [ht] at hu
    cases hu
  rwa [hpcs, goto_other s pc other]

section Drift

variable {b : Backend} {s s' m : State} {t : Nat}

theorem drift_goto {pc : Pc} (ht : (s.pcs t).fetched = false) : Drift s (s.goto t pc) t :=
  ⟨.inl ⟨rfl, stays_in_flight rfl ht⟩, harmless_silent rfl⟩

theorem drift_finish {after : After} (ht : (s.pcs t).fetched = false) (hpcs : m.pcs = s.pcs)
    (hvalue : m.value = s.value) (hreturns : m.returns = s.returns) (h : after.Safe) :
    Drift s (m.finish t after) t := by
  refine ⟨.inl ⟨?_, ?_⟩, harmless_finish hreturns h⟩
  · rw [finish_value, hvalue]
  · obtain ⟨pc, hland, -⟩ := lands_finish after hpcs
    exact stays_in_flight hland ht

/-- The counter is poisoned without a fetch before. -/
theorem drift_saturate {type : Saturation} {after : After} (ht : (s.pcs t).fetched = false)
    (hpcs : m.pcs = s.pcs) (hvalue : m.value = s.value) (hreturns : m.returns = s.returns)
    (h : after.Safe) : Drift s (m.saturate b t type after) t := by
  cases b with
  | mutex =>
    refine ⟨.inr (.inl ⟨type, ?_⟩), harmless_finish (by exact hreturns) h⟩
    exact finish_value _ _ _
  | gccSync | gccAtomic | win =>
    obtain ⟨pc, hland, -⟩ := lands_goto (t := t) (.saturate type after) hpcs h
    exact ⟨.inl ⟨hvalue, stays_in_flight hland ht⟩, harmless_silent hreturns⟩

/-- The counter is poisoned after a fetch. -/
theorem drift_fetch {type : Saturation} {after : After} (ht : (s.pcs t).fetched = false)
    (hpcs : m.pcs = s.pcs) (hvalue : m.value = s.value + 1 ∨ m.value + 1 = s.value)
    (hreturns : m.returns = s.returns) (h : after.Safe) (hafter : after.fetched = true) :
    Drift s (m.saturate b t type after) t := by
  cases b with
  | mutex =>
    refine ⟨.inr (.inl ⟨type, ?_⟩), harmless_finish (by exact hreturns) h⟩
    exact finish_value _ _ _
  | gccSync | gccAtomic | win =>
    refine ⟨.inr (.inr ⟨hvalue, ht, ?_, fun u hu hf => ?_⟩), harmless_silent hreturns⟩
    · show ((m.goto t _).pcs t).fetched
      rw [goto_pc]
      exact hafter
    · show ((m.goto t _).pcs u).fetched
      rwa [goto_other m _ hu, hpcs]

theorem drift_store {type : Saturation} {after : After} (h : after.Safe) :
    Drift s ((s.store (poison type)).finish t after) t :=
  ⟨.inr (.inl ⟨type, finish_value _ _ _⟩), harmless_finish rfl h⟩

theorem u32_pred_broken (h : Broken s.value) : u32 (s.value + (2 ^ 32 - 1)) + 1 = s.value := by
  have pos : 0 < s.value := by
    have := h.1
    omega
  rw [u32_pred pos (by have := h.2; omega)]
  omega

theorem incTurn_drift (h : Broken s.value) (ht : (s.pcs t).fetched = false) :
    Drift s (incTurn b t s) t := by
  unfold incTurn
  have alive : s.value ≠ 0 := by
    have := h.1
    omega
  rw [if_neg alive, if_pos (Nat.le_of_lt h.1)]
  exact drift_fetch ht (store_acquire_pcs s t _) (.inl (u32_of_lt h.2)) rfl safe_inc rfl

theorem incNotZeroTurn_drift (h : Broken s.value) (ht : (s.pcs t).fetched = false) :
    Drift s (incNotZeroTurn b t s) t := by
  unfold incNotZeroTurn
  have alive : s.value ≠ 0 := by
    have := h.1
    omega
  rw [if_neg alive]
  split
  · exact drift_finish ht (acquire_pcs s t) rfl rfl safe_incNotZero
  · rw [if_pos h.1]
    exact drift_saturate ht (acquire_pcs s t) rfl rfl safe_incNotZero

theorem decAndTestTurn_drift {locked : Bool} (h : Broken s.value)
    (ht : (s.pcs t).fetched = false) : Drift s (decAndTestTurn b locked t s) t := by
  unfold decAndTestTurn
  have large := h.1
  have invalid : ¬ (1 < s.value ∧ s.value ≤ refcountMax) := by omega
  have many : s.value ≠ 1 := by
    unfold refcountMax at large
    omega
  rw [if_neg invalid, if_neg many]
  have after : (decReturn locked false).fetched = true := by cases locked <;> rfl
  have returns (value : Nat) : ((s.drop t).store value).returns = s.returns := rfl
  exact drift_fetch ht (store_drop_pcs s t _) (.inr (u32_pred_broken h)) (returns _)
    (safe_decReturn locked) after

theorem decAndMutexLockTurn_drift (h : Broken s.value) (ht : (s.pcs t).fetched = false) :
    Drift s (decAndMutexLockTurn b t s) t := by
  unfold decAndMutexLockTurn
  have large := h.1
  have many : s.value ≠ 1 := by
    unfold refcountMax at large
    omega
  by_cases poisoned : refcountSaturated ≤ s.value
  · rw [if_pos poisoned]
    exact drift_finish ht (drop_pcs s t) rfl rfl safe_decAndMutexLock
  · rw [if_neg poisoned, if_neg many, if_pos large]
    exact drift_saturate ht (drop_pcs s t) rfl rfl safe_decAndMutexLock

theorem turn_drift {spurious : Bool} (h : Broken s.value) (hs : Settled s)
    (hstep : turn b t spurious s = some s') : Drift s s' t := by
  have ok := hs t
  unfold turn at hstep
  cases hp : s.pcs t with
  | idle =>
    rw [hp] at hstep
    cases hstep
  | inc =>
    rw [hp] at hstep
    cases hstep
    exact incTurn_drift h (by rw [hp]; rfl)
  | incNotZero =>
    rw [hp] at hstep
    cases hstep
    exact incNotZeroTurn_drift h (by rw [hp]; rfl)
  | incNotZeroCas old =>
    rw [hp] at hstep ok
    cases hstep
    have stale : ¬ (s.value = old ∧ (spurious && b.weak) = false) := by
      rintro ⟨rfl, -⟩
      exact absurd h.1 (Nat.not_lt.2 ok)
    unfold incNotZeroCasTurn
    rw [if_neg stale]
    exact incNotZeroTurn_drift h (by rw [hp]; rfl)
  | decAndTest locked =>
    rw [hp] at hstep
    cases hstep
    exact decAndTestTurn_drift h (by rw [hp]; rfl)
  | decAndMutexLock =>
    rw [hp] at hstep
    cases hstep
    exact decAndMutexLockTurn_drift h (by rw [hp]; rfl)
  | decAndMutexLockCas value =>
    rw [hp] at hstep ok
    cases hstep
    have stale : ¬ (s.value = value ∧ (spurious && b.weak) = false) := by
      rintro ⟨rfl, -⟩
      exact absurd h.1 (Nat.not_lt.2 ok)
    unfold decAndMutexLockCasTurn
    rw [if_neg stale]
    exact decAndMutexLockTurn_drift h (by rw [hp]; rfl)
  | lock =>
    simp only [hp, Option.ite_none_right_eq_some, Option.some.injEq] at hstep
    obtain ⟨-, rfl⟩ := hstep
    have ht : (s.pcs t).fetched = false := by rw [hp]; rfl
    exact ⟨.inl ⟨rfl, stays_in_flight rfl ht⟩, harmless_silent rfl⟩
  | unlock =>
    rw [hp] at hstep
    cases hstep
    exact drift_finish (by rw [hp]; rfl) rfl rfl rfl safe_decAndMutexLock
  | saturate type after =>
    rw [hp] at hstep ok
    cases hstep
    exact drift_store ok

theorem anyStep_drift {l : Label} (h : Broken s.value) (hs : Settled s)
    (hstep : anyStep b s l = some s') : Drift s s' l.thread := by
  cases l with
  | call t op =>
    simp only [anyStep, Option.ite_none_right_eq_some, Option.some.injEq] at hstep
    obtain ⟨hidle, rfl⟩ := hstep
    exact drift_goto (by rw [hidle]; rfl)
  | turn t spurious => exact turn_drift h hs hstep
  | lock t | unlock t | hand t u =>
    simp only [anyStep, step, Option.ite_none_right_eq_some, Option.some.injEq] at hstep
    obtain ⟨-, rfl⟩ := hstep
    exact ⟨.inl ⟨rfl, fun _ h => h⟩, harmless_silent rfl⟩

end Drift

/-! ## The band -/

/-- At most `k` away from the poison values. -/
def Band (value k : Nat) : Prop :=
  refcountSaturated ≤ value + k ∧ value ≤ poison .subUseAfterFree + k

/-- The counter is as far from the poison values as there are operations in flight. -/
structure Pinned (s : State) : Prop where
  band : ∀ ts, InFlight s ts → Band s.value ts.length
  settled : Settled s

theorem poison_band (type : Saturation) (k : Nat) : Band (poison type) k := by
  unfold Band poison
  cases type <;> simp only [Saturation.code] <;> omega

theorem Pinned.broken {s : State} (h : Pinned s) (few : Few s) : Broken s.value := by
  obtain ⟨ts, hlen, flight⟩ := few
  have hband := h.band ts flight
  simp only [Band, poison, refcountSaturated, Saturation.code] at hband
  unfold Broken refcountMax
  omega

theorem InFlight.before {s s' : State} {ts : List Nat} (h : InFlight s' ts)
    (hs : ∀ u, (s.pcs u).fetched → (s'.pcs u).fetched) : InFlight s ts :=
  fun u hu => h u (hs u hu)

theorem Drift.band {s s' : State} {t : Nat} (h : Drift s s' t)
    (hs : ∀ ts, InFlight s ts → Band s.value ts.length) (ts : List Nat) (hts : InFlight s' ts) :
    Band s'.value ts.length := by
  obtain ⟨hvalue, hstays⟩ | ⟨type, hvalue⟩ | ⟨hvalue, hbefore, hnow, hstays⟩ := h.value
  · rw [hvalue]
    exact hs ts (hts.before hstays)
  · rw [hvalue]
    exact poison_band type _
  · have here : t ∈ ts := hts t hnow
    have others : InFlight s (ts.erase t) := by
      intro u hu
      have other : u ≠ t := by
        rintro rfl
        rw [hbefore] at hu
        cases hu
      exact (List.mem_erase_of_ne other).2 (hts u (hstays u other hu))
    have hband := hs _ others
    have pos : 0 < ts.length := List.length_pos_of_mem here
    rw [List.length_erase_of_mem here] at hband
    simp only [Band] at hband ⊢
    omega

theorem anyStep_pinned {b : Backend} {s s' : State} {l : Label} (h : Pinned s) (few : Few s)
    (hstep : anyStep b s l = some s') : Pinned s' ∧ Harmless s s' := by
  have drift : Drift s s' l.thread := anyStep_drift (h.broken few) h.settled hstep
  exact ⟨⟨drift.band h.band, (anyStep_lands hstep).settled h.settled⟩, drift.harmless⟩

/-! ## A bound on the threads -/

/-- Nobody outside the list has called anything. -/
def IdleBut (ts : List Nat) (s : State) : Prop := ∀ t, t ∉ ts → s.pcs t = .idle

theorem anyStep_idleBut {b : Backend} {ts : List Nat} {s s' : State} {l : Label}
    (h : IdleBut ts s) (hl : l.thread ∈ ts) (hstep : anyStep b s l = some s') :
    IdleBut ts s' := by
  obtain ⟨pc, hpcs, -⟩ := anyStep_lands hstep
  intro u hu
  have other : u ≠ l.thread := by
    rintro rfl
    exact hu hl
  rw [hpcs, goto_other s pc other]
  exact h u hu

theorem IdleBut.few {ts : List Nat} {s : State} (h : IdleBut ts s) (hlen : ts.length < 2 ^ 29) :
    Few s := by
  refine ⟨ts, hlen, fun t ht => ?_⟩
  by_contra outside
  rw [h t outside] at ht
  cases ht

theorem idleBut_throughout {b : Backend} {ts : List Nat} {s : State} {ls : List Label}
    (h : IdleBut ts s) (hls : ∀ l ∈ ls, l.thread ∈ ts) :
    Lib.Lts.Throughout (anyStep b) (IdleBut ts) s ls :=
  Lib.Lts.throughout_of_eachStep (fun _ _ _ hm hl hstep => anyStep_idleBut hm hl hstep)
    (fun _ hm => hm) h (Lib.Lts.eachStep_of_forall hls)

/-- With fewer than 2^29 threads there are never more operations in flight. -/
theorem few_of_threads {b : Backend} {t : Nat} {s : State} (ts : List Nat)
    (before ls : List Label) (hlen : ts.length < 2 ^ 29)
    (reached : Lib.Lts.run (anyStep b) (init t) before = some s)
    (hbefore : ∀ l ∈ before, l.thread ∈ ts) (hls : ∀ l ∈ ls, l.thread ∈ ts) :
    Lib.Lts.Throughout (anyStep b) Few s ls := by
  have start : IdleBut ts (init t) := fun _ _ => rfl
  have now : IdleBut ts s := Lib.Lts.throughout_last (idleBut_throughout start hbefore) reached
  exact Lib.Lts.throughout_mono (fun m hm => hm.few hlen) (idleBut_throughout now hls)

/-! ## Runs -/

/-- **A poisoned counter stays poisoned.** Whatever any threads called before,
from a state with a poison value on and while fewer than 2^29 operations are
between their fetch and their store, the counter stays above `refcountMax`, no
decrement returns `true` and no `ct_refcount_inc_not_zero` returns `false`. -/
theorem poisoned_runs (b : Backend) (t : Nat) (before ls : List Label) (s : State)
    (type : Saturation) (reached : Lib.Lts.run (anyStep b) (init t) before = some s)
    (poisoned : s.value = poison type) (few : Lib.Lts.Throughout (anyStep b) Few s ls) :
    Lib.Lts.Throughout (anyStep b) (fun s => refcountMax < s.value) s ls ∧
    Lib.Lts.EachStep (anyStep b) (fun s l => ∀ s', anyStep b s l = some s' → Harmless s s')
      s ls := by
  have keeps (m : State) (l : Label) (m' : State) (hm : Pinned m ∧ Few m) (few' : Few m')
      (hstep : anyStep b m l = some m') :
      (Pinned m' ∧ Few m') ∧ ∀ u, anyStep b m l = some u → Harmless m u := by
    have kept := anyStep_pinned hm.1 hm.2 hstep
    refine ⟨⟨kept.1, few'⟩, fun u hu => ?_⟩
    obtain rfl : m' = u := Option.some.inj (hstep.symm.trans hu)
    exact kept.2
  have pinned : Pinned s := by
    refine ⟨fun ts _ => ?_, reachable_settled reached⟩
    rw [poisoned]
    exact poison_band type _
  have start : Pinned s ∧ Few s := ⟨pinned, Lib.Lts.throughout_head few⟩
  obtain ⟨inv, harmless⟩ := Lib.Lts.eachStep_of_throughout keeps start few
  have stays := Lib.Lts.throughout_mono
    (fun m (hm : Pinned m ∧ Few m) => (hm.1.broken hm.2).1) inv
  exact ⟨stays, harmless⟩

/-- The last reference is dropped and the thread 1 still counts up. -/
def useAfterFree : List Label :=
  [.call 0 .decAndTest, .turn 0 false, .call 1 .inc, .turn 1 false, .turn 1 false]

/-- Two threads go on with the counter after that. -/
theorem poisoned_after_free :
    ∃ s, Lib.Lts.run (anyStep .gccAtomic) (init 0) useAfterFree = some s ∧
      Lib.Lts.Throughout (anyStep .gccAtomic) (fun s => refcountMax < s.value) s
        [.call 0 .decAndTest, .turn 0 false, .call 1 .incNotZero, .turn 1 false,
          .turn 0 false] := by
  refine ⟨_, rfl, ?_⟩
  exact (poisoned_runs .gccAtomic 0 useAfterFree _ _ .addUseAfterFree rfl rfl
    (few_of_threads (t := 0) [0, 1] useAfterFree _ (by decide) rfl (by decide) (by decide))).1

end Coter.Ref
