import Coter.Sync.RefRun

/-!
# Turns of the reference counter

* `Took`: what a turn of a thread does, by the access that it is at;
* `turn_took`: while at most `refcountMax` references are held, nothing else;
* `Alone`: what a turn leaves to the other threads.
-/

namespace Coter.Ref

/-- The thread is in `ct_refcount_dec_and_mutex_lock`, before it locks. -/
def Pc.drops : Pc → Bool
  | .decAndMutexLock | .decAndMutexLockCas _ => true
  | _ => false

/-- The thread is in `ct_refcount_dec_and_mutex_lock`. -/
def Pc.puts : Pc → Bool
  | .decAndMutexLock | .decAndMutexLockCas _ | .lock | .decAndTest _ | .unlock => true
  | _ => false

inductive Took (s : State) (t : Nat) : State → Prop
  | inc : s.pcs t = .inc →
      Took s t (((s.acquire t).store (s.value + 1)).finish t (.ret .inc true))
  | refuse : (s.pcs t).readsNotZero = true → s.value = 0 →
      Took s t (s.finish t (.ret .incNotZero false))
  | reads (old : Nat) : (s.pcs t).readsNotZero = true → Took s t (s.goto t (.incNotZeroCas old))
  | revive : (s.pcs t).readsNotZero = true →
      Took s t (((s.acquire t).store (s.value + 1)).finish t (.ret .incNotZero true))
  | compares (value : Nat) : (s.pcs t).drops = true →
      Took s t (s.goto t (.decAndMutexLockCas value))
  | lower : (s.pcs t).drops = true → 1 < s.value →
      Took s t (((s.drop t).store (s.value - 1)).finish t (.ret .decAndMutexLock false))
  | waits : (s.pcs t).drops = true → Took s t (s.goto t .lock)
  | enter : s.pcs t = .lock → s.owner = none →
      Took s t ({ s with owner := some t }.goto t (.decAndTest true))
  | last (locked : Bool) : s.pcs t = .decAndTest locked → s.value = 1 →
      Took s t (((s.drop t).store 0).finish t (decReturn locked true))
  | more (locked : Bool) : s.pcs t = .decAndTest locked → 1 < s.value →
      Took s t (((s.drop t).store (s.value - 1)).finish t (decReturn locked false))
  | unlock : s.pcs t = .unlock →
      Took s t ({ s with owner := none }.finish t (.ret .decAndMutexLock false))

section Turns

variable {b : Backend} {s s' : State} {t : Nat}

theorem incTurn_took (hi : Inv s) (hpc : s.pcs t = .inc)
    (hb' : (incTurn b t s).refs.length ≤ refcountMax) : Took s t (incTurn b t s) := by
  have holds : t ∈ s.refs := by simpa [PcOk, hpc] using hi.threads t
  have pos : 0 < s.value := hi.counts ▸ List.length_pos_of_mem holds
  have hc := hi.counts
  have below : s.value < refcountMax := by
    have grown : (incTurn b t s).refs.length = s.refs.length + 1 := by
      unfold incTurn
      split
      · rw [saturate_refs]
        rfl
      · split
        · rw [saturate_refs]
          rfl
        · rfl
    omega
  unfold incTurn
  rw [if_neg (by omega), if_neg (by omega), u32_succ (by omega)]
  exact .inc hpc

theorem incNotZeroStore_took (hc : s.value = s.refs.length)
    (hpc : (s.pcs t).readsNotZero = true)
    (hb' : (incNotZeroStore b t s).refs.length ≤ refcountMax) :
    Took s t (incNotZeroStore b t s) := by
  have grown : (incNotZeroStore b t s).refs.length = s.refs.length + 1 := by
    unfold incNotZeroStore
    split
    · rw [saturate_refs]
      rfl
    · rfl
  unfold incNotZeroStore
  rw [if_neg (by omega), u32_succ (by omega)]
  exact .revive hpc

theorem incNotZeroTurn_took (hi : Inv s) (hb : s.refs.length ≤ refcountMax)
    (hpc : (s.pcs t).readsNotZero = true)
    (hb' : (incNotZeroTurn b t s).refs.length ≤ refcountMax) :
    Took s t (incNotZeroTurn b t s) := by
  have hv : s.value ≤ refcountMax := hi.counts ▸ hb
  have hsat : ¬ refcountSaturated ≤ s.value := by
    have := max_lt_saturated
    omega
  unfold incNotZeroTurn at hb' ⊢
  by_cases hz : s.value = 0
  · rw [if_pos hz]
    exact .refuse hpc hz
  · simp only [if_neg hz, if_neg hsat, if_neg (Nat.not_lt.2 hv)] at hb' ⊢
    cases b with
    | mutex => exact incNotZeroStore_took hi.counts hpc hb'
    | gccSync | gccAtomic | win => exact .reads s.value hpc

theorem incNotZeroCasTurn_took {spurious : Bool} {old : Nat} (hi : Inv s)
    (hb : s.refs.length ≤ refcountMax) (hpc : (s.pcs t).readsNotZero = true)
    (hb' : (incNotZeroCasTurn b spurious t old s).refs.length ≤ refcountMax) :
    Took s t (incNotZeroCasTurn b spurious t old s) := by
  unfold incNotZeroCasTurn at hb' ⊢
  split at hb'
  · rename_i hcas
    rw [if_pos hcas]
    exact incNotZeroStore_took hi.counts hpc hb'
  · rename_i hcas
    rw [if_neg hcas]
    exact incNotZeroTurn_took hi hb hpc hb'

theorem decAndTestTurn_took {locked : Bool} (hi : Inv s) (hpc : s.pcs t = .decAndTest locked)
    (hb : s.refs.length ≤ refcountMax) : Took s t (decAndTestTurn b locked t s) := by
  have ok : t ∈ s.refs ∧ (locked = true → s.owner = some t) := by
    simpa [PcOk, hpc] using hi.threads t
  have pos : 0 < s.value := hi.counts ▸ List.length_pos_of_mem ok.1
  have hv : s.value ≤ refcountMax := hi.counts ▸ hb
  unfold decAndTestTurn
  by_cases hone : s.value = 1
  · simp only [hone, Nat.lt_irrefl, false_and, if_false, if_true]
    exact .last locked hpc hone
  · have more : 1 < s.value ∧ s.value ≤ refcountMax := by omega
    simp only [if_pos more, u32_pred pos (by have := max_lt_range; omega)]
    exact .more locked hpc more.1

theorem decAndMutexLockStore_took (hpc : (s.pcs t).drops = true) (more : 1 < s.value)
    (hv : s.value ≤ refcountMax) : Took s t (decAndMutexLockStore t s) := by
  unfold decAndMutexLockStore
  rw [u32_pred (by omega) (by have := max_lt_range; omega)]
  exact .lower hpc more

theorem decAndMutexLockTurn_took (hpc : (s.pcs t).drops = true) (pos : 0 < s.value)
    (hv : s.value ≤ refcountMax) : Took s t (decAndMutexLockTurn b t s) := by
  have hsat : ¬ refcountSaturated ≤ s.value := by
    have := max_lt_saturated
    omega
  unfold decAndMutexLockTurn
  by_cases hone : s.value = 1
  · rw [if_neg hsat, if_pos hone]
    exact .waits hpc
  · have nowrap : ¬ s.value < u32 (s.value + (2 ^ 32 - 1)) := by
      rw [u32_pred pos (by have := max_lt_range; omega)]
      omega
    rw [if_neg hsat, if_neg hone, if_neg (Nat.not_lt.2 hv), if_neg nowrap]
    cases b with
    | mutex => exact decAndMutexLockStore_took hpc (by omega) hv
    | gccSync | gccAtomic | win => exact .compares s.value hpc

theorem decAndMutexLockCasTurn_took {spurious : Bool} {value : Nat}
    (hpc : s.pcs t = .decAndMutexLockCas value) (more : 1 < value) (pos : 0 < s.value)
    (hv : s.value ≤ refcountMax) : Took s t (decAndMutexLockCasTurn b spurious t value s) := by
  have drops : (s.pcs t).drops = true := by rw [hpc]; rfl
  unfold decAndMutexLockCasTurn
  split
  · exact decAndMutexLockStore_took drops (by omega) hv
  · exact decAndMutexLockTurn_took drops pos hv

/-- While at most `refcountMax` references are held, no turn poisons the counter. -/
theorem turn_took {spurious : Bool} (hi : Inv s) (hb : s.refs.length ≤ refcountMax)
    (hb' : s'.refs.length ≤ refcountMax) (hturn : turn b t spurious s = some s') :
    Took s t s' := by
  have hv : s.value ≤ refcountMax := hi.counts ▸ hb
  have ok := hi.threads t
  have pos (holds : t ∈ s.refs) : 0 < s.value := hi.counts ▸ List.length_pos_of_mem holds
  unfold turn at hturn
  cases hpc : s.pcs t with
  | idle =>
    rw [hpc] at hturn
    cases hturn
  | inc =>
    rw [hpc] at hturn
    cases hturn
    exact incTurn_took hi hpc hb'
  | incNotZero =>
    rw [hpc] at hturn
    cases hturn
    exact incNotZeroTurn_took hi hb (by rw [hpc]; rfl) hb'
  | incNotZeroCas old =>
    rw [hpc] at hturn
    cases hturn
    exact incNotZeroCasTurn_took hi hb (by rw [hpc]; rfl) hb'
  | decAndTest locked =>
    rw [hpc] at hturn
    cases hturn
    exact decAndTestTurn_took hi hpc hb
  | decAndMutexLock =>
    rw [hpc] at hturn ok
    cases hturn
    exact decAndMutexLockTurn_took (by rw [hpc]; rfl) (pos ok.1) hv
  | decAndMutexLockCas value =>
    rw [hpc] at hturn ok
    cases hturn
    exact decAndMutexLockCasTurn_took hpc ok.2.2.1 (pos ok.1) hv
  | lock =>
    simp only [hpc, Option.ite_none_right_eq_some, Option.some.injEq] at hturn
    obtain ⟨free, rfl⟩ := hturn
    exact .enter hpc free
  | unlock =>
    rw [hpc] at hturn
    cases hturn
    exact .unlock hpc
  | saturate type after =>
    rw [hpc] at ok
    exact ok.elim

end Turns

/-- The step is taken by the thread `t` alone. -/
structure Alone (s s' : State) (t : Nat) : Prop where
  pcs : ∀ u, u ≠ t → s'.pcs u = s.pcs u
  refs : ∀ u, u ≠ t → u ∈ s.refs → u ∈ s'.refs
  owner : ∀ u, u ≠ t → (s'.owner = some u ↔ s.owner = some u)

theorem goto_pcs_self (s : State) (t : Nat) (pc : Pc) : (s.goto t pc).pcs t = pc := by
  simp [State.goto]

theorem alone_of_goto {s s' : State} {t : Nat} {pc : Pc} (hpcs : s'.pcs = (s.goto t pc).pcs)
    (hr : ∀ u, u ≠ t → u ∈ s.refs → u ∈ s'.refs)
    (ho : ∀ u, u ≠ t → (s'.owner = some u ↔ s.owner = some u)) : Alone s s' t where
  pcs u hu := by
    rw [hpcs]
    simp [State.goto, hu]
  refs := hr
  owner := ho

theorem Took.alone {s s' : State} {t : Nat} (hi : Inv s) (h : Took s t s') : Alone s s' t := by
  have ok := hi.threads t
  have same (u : Nat) (_ : u ≠ t) : s.owner = some u ↔ s.owner = some u := Iff.rfl
  have keeps (u : Nat) (_ : u ≠ t) (hm : u ∈ s.refs) : u ∈ s.refs := hm
  have grows (u : Nat) (_ : u ≠ t) (hm : u ∈ s.refs) : u ∈ t :: s.refs := List.mem_cons_of_mem t hm
  have shrinks (u : Nat) (hu : u ≠ t) (hm : u ∈ s.refs) : u ∈ s.refs.erase t :=
    (List.mem_erase_of_ne hu).2 hm
  cases h with
  | inc | revive => exact alone_of_goto rfl grows same
  | refuse | reads | compares | waits => exact alone_of_goto rfl keeps same
  | lower => exact alone_of_goto rfl shrinks same
  | last locked =>
    have pcs : (((s.drop t).store 0).finish t (decReturn locked true)).pcs =
        (s.goto t (decReturn locked true).pc).pcs := finish_pcs _ t _
    apply alone_of_goto pcs
    · rw [finish_refs]
      exact shrinks
    · rw [finish_owner]
      exact same
  | more locked =>
    have pcs : (((s.drop t).store (s.value - 1)).finish t (decReturn locked false)).pcs =
        (s.goto t (decReturn locked false).pc).pcs := finish_pcs _ t _
    apply alone_of_goto pcs
    · rw [finish_refs]
      exact shrinks
    · rw [finish_owner]
      exact same
  | enter hpc free =>
    refine alone_of_goto rfl keeps fun u hu => ?_
    have := owner_other hu (Or.inl free)
    exact ⟨fun h => absurd (Option.some.inj h).symm hu, fun h => absurd h this⟩
  | unlock hpc =>
    rw [hpc] at ok
    refine alone_of_goto rfl keeps fun u hu => ?_
    have := owner_other hu (Or.inr ok)
    exact ⟨fun h => absurd h (by simp), fun h => absurd h this⟩

end Coter.Ref
