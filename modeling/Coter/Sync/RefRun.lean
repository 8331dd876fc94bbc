import Coter.Sync.Ref

/-!
# Runs of the reference counter

* `Inv`: the counter is the number of held references, and a thread about to
  drop one holds one;
* `Move`: what a step can do while the counter is neither dead nor poisoned;
* `step_sound`: what every step does, over runs with at most `refcountMax` references.
-/

namespace Coter.Ref

/-- What the thread `t` may rely on before its next access. A good run never
gets to a poisoning store. -/
def PcOk (refs : List Nat) (owner : Option Nat) (t : Nat) : Pc → Prop
  | .idle | .incNotZero => True
  | .incNotZeroCas old => 0 < old ∧ old ≤ refcountMax
  | .inc => t ∈ refs
  | .decAndTest locked => t ∈ refs ∧ (locked = true → owner = some t)
  | .decAndMutexLock | .lock => t ∈ refs ∧ owner ≠ some t
  | .decAndMutexLockCas value => t ∈ refs ∧ owner ≠ some t ∧ 1 < value ∧ value ≤ refcountMax
  | .unlock => owner = some t
  | .saturate _ _ => False

/-- A decrement that returned `true`. -/
def Return.final (r : Return) : Bool := r.op.isDec && r.result

structure Inv (s : State) : Prop where
  counts : s.value = s.refs.length
  finals : s.returns.countP Return.final = if s.value = 0 then 1 else 0
  threads : ∀ t, PcOk s.refs s.owner t (s.pcs t)

theorem init_inv (t : Nat) : Inv (init t) :=
  ⟨rfl, rfl, fun _ => trivial⟩

/-! ## What a step can do -/

/-- How a decrement that did not drop the last reference goes on. -/
def After.Fails (s : State) (t : Nat) : After → Prop
  | .ret .decAndTest result => result = false
  | .ret .decAndMutexLock result => result = false ∧ s.owner ≠ some t
  | .ret _ _ => False
  | .unlock => s.owner = some t

inductive Move (s : State) : State → Prop
  | goto (t : Nat) (pc : Pc) : PcOk s.refs s.owner t pc → Move s (s.goto t pc)
  | refuse (t : Nat) : s.value = 0 → Move s (s.finish t (.ret .incNotZero false))
  | gain (t : Nat) (op : Op) : 0 < s.value → op.isDec = false →
      Move s (((s.acquire t).store (s.value + 1)).finish t (.ret op true))
  | lose (t : Nat) (after : After) : t ∈ s.refs → 1 < s.value → after.Fails s t →
      Move s (((s.drop t).store (s.value - 1)).finish t after)
  | last (t : Nat) (op : Op) : t ∈ s.refs → s.value = 1 → op.isDec = true →
      (op = .decAndMutexLock → s.owner = some t) →
      Move s (((s.drop t).store 0).finish t (.ret op true))
  | enter (t : Nat) (pc : Pc) : s.owner = none → PcOk s.refs (some t) t pc →
      Move s ({ s with owner := some t }.goto t pc)
  | leave (t : Nat) : s.owner = some t → Move s ({ s with owner := none }.goto t .idle)
  | unlock (t : Nat) : s.owner = some t →
      Move s ({ s with owner := none }.finish t (.ret .decAndMutexLock false))
  | hand (t u : Nat) : s.pcs t = .idle → t ∈ s.refs → Move s ((s.drop t).acquire u)

theorem goto_self (s : State) (t : Nat) : s.goto t (s.pcs t) = s := by
  unfold State.goto
  congr 1
  funext u
  split
  · rename_i h
    rw [h]
  · rfl

theorem u32_succ {n : Nat} (h : n ≤ refcountMax) : u32 (n + 1) = n + 1 :=
  u32_of_lt (by unfold refcountMax at h; omega)

theorem max_lt_range : refcountMax < 2 ^ 32 := by decide

theorem max_lt_saturated : refcountMax < refcountSaturated := by decide

section Turns

variable {b : Backend} {s s' : State} {t : Nat}

theorem saturate_refs (type : Saturation) (after : After) :
    (s.saturate b t type after).refs = s.refs := by
  unfold State.saturate
  cases b <;> cases after <;> rfl

theorem incTurn_move (hi : Inv s) (hpc : s.pcs t = .inc) (hb : s.refs.length ≤ refcountMax)
    (hb' : (incTurn b t s).refs.length ≤ refcountMax) : Move s (incTurn b t s) := by
  have holds : t ∈ s.refs := by simpa [PcOk, hpc] using hi.threads t
  have pos : 0 < s.value := hi.counts ▸ List.length_pos_of_mem holds
  have hv : s.value ≤ refcountMax := hi.counts ▸ hb
  unfold incTurn at hb' ⊢
  have hne : s.value ≠ 0 := by omega
  by_cases hmax : refcountMax ≤ s.value
  · simp only [if_neg hne, if_pos hmax, saturate_refs] at hb'
    have grown : (s.refs.length + 1) ≤ refcountMax := by simpa [State.store, State.acquire] using hb'
    have := hi.counts
    omega
  · simp only [if_neg hne, if_neg hmax, u32_succ hv]
    exact .gain t .inc pos rfl

theorem incNotZeroStore_move (hi : Inv s) (pos : 0 < s.value) (hb : s.refs.length ≤ refcountMax)
    (hb' : (incNotZeroStore b t s).refs.length ≤ refcountMax) :
    Move s (incNotZeroStore b t s) := by
  have hv : s.value ≤ refcountMax := hi.counts ▸ hb
  unfold incNotZeroStore at hb' ⊢
  by_cases hmax : refcountMax ≤ s.value
  · simp only [if_pos hmax, saturate_refs] at hb'
    have grown : (s.refs.length + 1) ≤ refcountMax := by simpa [State.store, State.acquire] using hb'
    have := hi.counts
    omega
  · simp only [if_neg hmax, u32_succ hv]
    exact .gain t .incNotZero pos rfl

theorem incNotZeroTurn_move (hi : Inv s) (hb : s.refs.length ≤ refcountMax)
    (hb' : (incNotZeroTurn b t s).refs.length ≤ refcountMax) :
    Move s (incNotZeroTurn b t s) := by
  have hv : s.value ≤ refcountMax := hi.counts ▸ hb
  have hsat : ¬ refcountSaturated ≤ s.value := by
    have := max_lt_saturated
    omega
  unfold incNotZeroTurn at hb' ⊢
  by_cases hz : s.value = 0
  · rw [if_pos hz]
    exact .refuse t hz
  · have pos : 0 < s.value := by omega
    simp only [if_neg hz, if_neg hsat, if_neg (Nat.not_lt.2 hv)] at hb' ⊢
    cases b with
    | mutex => exact incNotZeroStore_move hi pos hb hb'
    | gccSync | gccAtomic | win => exact .goto t _ ⟨pos, hv⟩

theorem incNotZeroCasTurn_move {spurious : Bool} {old : Nat} (hi : Inv s)
    (hpc : s.pcs t = .incNotZeroCas old) (hb : s.refs.length ≤ refcountMax)
    (hb' : (incNotZeroCasTurn b spurious t old s).refs.length ≤ refcountMax) :
    Move s (incNotZeroCasTurn b spurious t old s) := by
  have range : 0 < old ∧ old ≤ refcountMax := by simpa [PcOk, hpc] using hi.threads t
  unfold incNotZeroCasTurn at hb' ⊢
  split at hb'
  · rename_i hcas
    rw [if_pos hcas]
    exact incNotZeroStore_move hi (by omega) hb hb'
  · rename_i hcas
    rw [if_neg hcas]
    exact incNotZeroTurn_move hi hb hb'

theorem decAndTestTurn_move {locked : Bool} (hi : Inv s) (hpc : s.pcs t = .decAndTest locked)
    (hb : s.refs.length ≤ refcountMax) : Move s (decAndTestTurn b locked t s) := by
  have ok : t ∈ s.refs ∧ (locked = true → s.owner = some t) := by
    simpa [PcOk, hpc] using hi.threads t
  obtain ⟨holds, inside⟩ := ok
  have pos : 0 < s.value := hi.counts ▸ List.length_pos_of_mem holds
  have hv : s.value ≤ refcountMax := hi.counts ▸ hb
  unfold decAndTestTurn
  by_cases hone : s.value = 1
  · simp only [hone, Nat.lt_irrefl, false_and, if_false, if_true]
    cases locked with
    | true => exact .last t .decAndMutexLock holds hone rfl (fun _ => inside rfl)
    | false => exact .last t .decAndTest holds hone rfl nofun
  · have more : 1 < s.value ∧ s.value ≤ refcountMax := by omega
    simp only [if_pos more, u32_pred pos (by have := max_lt_range; omega)]
    cases locked with
    | true => exact .lose t .unlock holds more.1 (inside rfl)
    | false => exact .lose t (.ret .decAndTest false) holds more.1 rfl

theorem decAndMutexLockStore_move (hi : Inv s) (holds : t ∈ s.refs) (outside : s.owner ≠ some t)
    (more : 1 < s.value) (hb : s.refs.length ≤ refcountMax) :
    Move s (decAndMutexLockStore t s) := by
  have hv : s.value ≤ refcountMax := hi.counts ▸ hb
  unfold decAndMutexLockStore
  rw [u32_pred (by omega) (by have := max_lt_range; omega)]
  exact .lose t (.ret .decAndMutexLock false) holds more ⟨rfl, outside⟩

theorem decAndMutexLockTurn_move (hi : Inv s) (holds : t ∈ s.refs) (outside : s.owner ≠ some t)
    (hb : s.refs.length ≤ refcountMax) : Move s (decAndMutexLockTurn b t s) := by
  have pos : 0 < s.value := hi.counts ▸ List.length_pos_of_mem holds
  have hv : s.value ≤ refcountMax := hi.counts ▸ hb
  have hsat : ¬ refcountSaturated ≤ s.value := by
    have := max_lt_saturated
    omega
  unfold decAndMutexLockTurn
  by_cases hone : s.value = 1
  · rw [if_neg hsat, if_pos hone]
    exact .goto t .lock ⟨holds, outside⟩
  · have more : 1 < s.value := by omega
    have nowrap : ¬ s.value < u32 (s.value + (2 ^ 32 - 1)) := by
      rw [u32_pred pos (by have := max_lt_range; omega)]
      omega
    rw [if_neg hsat, if_neg hone, if_neg (Nat.not_lt.2 hv), if_neg nowrap]
    cases b with
    | mutex => exact decAndMutexLockStore_move hi holds outside more hb
    | gccSync | gccAtomic | win => exact .goto t _ ⟨holds, outside, more, hv⟩

theorem decAndMutexLockCasTurn_move {spurious : Bool} {value : Nat} (hi : Inv s)
    (hpc : s.pcs t = .decAndMutexLockCas value) (hb : s.refs.length ≤ refcountMax) :
    Move s (decAndMutexLockCasTurn b spurious t value s) := by
  have ok : t ∈ s.refs ∧ s.owner ≠ some t ∧ 1 < value ∧ value ≤ refcountMax := by
    simpa [PcOk, hpc] using hi.threads t
  obtain ⟨holds, outside, more, -⟩ := ok
  unfold decAndMutexLockCasTurn
  split
  · exact decAndMutexLockStore_move hi holds outside (by omega) hb
  · exact decAndMutexLockTurn_move hi holds outside hb

theorem turn_move {spurious : Bool} (hi : Inv s) (hb : s.refs.length ≤ refcountMax)
    (hb' : s'.refs.length ≤ refcountMax) (hstep : turn b t spurious s = some s') :
    Move s s' := by
  have ok := hi.threads t
  unfold turn at hstep
  split at hstep
  · cases hstep
  · rename_i hpc
    cases hstep
    exact incTurn_move hi hpc hb hb'
  · cases hstep
    exact incNotZeroTurn_move hi hb hb'
  · rename_i hpc
    cases hstep
    exact incNotZeroCasTurn_move hi hpc hb hb'
  · rename_i hpc
    cases hstep
    exact decAndTestTurn_move hi hpc hb
  · rename_i hpc
    cases hstep
    rw [hpc] at ok
    exact decAndMutexLockTurn_move hi ok.1 ok.2 hb
  · rename_i hpc
    cases hstep
    exact decAndMutexLockCasTurn_move hi hpc hb
  · rename_i hpc
    split at hstep
    · rename_i free
      cases hstep
      rw [hpc] at ok
      exact .enter t (.decAndTest true) free ⟨ok.1, fun _ => rfl⟩
    · cases hstep
  · rename_i hpc
    cases hstep
    rw [hpc] at ok
    exact .unlock t ok
  · rename_i hpc
    rw [hpc] at ok
    exact ok.elim

/-- While at most `refcountMax` references are held, every step is a move. -/
theorem step_move {l : Label} (hi : Inv s) (hb : s.refs.length ≤ refcountMax)
    (hb' : s'.refs.length ≤ refcountMax) (hstep : step b s l = some s') : Move s s' := by
  cases l with
  | call t op =>
    simp only [step, Option.ite_none_right_eq_some, Option.some.injEq] at hstep
    obtain ⟨⟨hidle, may⟩, rfl⟩ := hstep
    apply Move.goto
    cases op with
    | incNotZero => trivial
    | inc | decAndTest | decAndMutexLock => simpa [mayCall, Op.start, PcOk] using may
  | turn t spurious => exact turn_move hi hb hb' hstep
  | lock t =>
    simp only [step, Option.ite_none_right_eq_some, Option.some.injEq] at hstep
    obtain ⟨⟨hidle, free⟩, rfl⟩ := hstep
    have := Move.enter t .idle free trivial
    rwa [← hidle, show s.pcs t = ({ s with owner := some t } : State).pcs t from rfl,
      goto_self] at this
  | unlock t =>
    simp only [step, Option.ite_none_right_eq_some, Option.some.injEq] at hstep
    obtain ⟨⟨hidle, inside⟩, rfl⟩ := hstep
    have := Move.leave t inside
    rwa [← hidle, show s.pcs t = ({ s with owner := none } : State).pcs t from rfl,
      goto_self] at this
  | hand t u =>
    simp only [step, Option.ite_none_right_eq_some, Option.some.injEq] at hstep
    obtain ⟨⟨hidle, holds⟩, rfl⟩ := hstep
    exact .hand t u hidle holds

end Turns

/-! ## What the moves keep -/

theorem PcOk.frame {refs refs' : List Nat} {owner owner' : Option Nat} {t : Nat} {pc : Pc}
    (hr : t ∈ refs → t ∈ refs') (ho : owner' = some t ↔ owner = some t)
    (h : PcOk refs owner t pc) : PcOk refs' owner' t pc := by
  cases pc with
  | idle | incNotZero => trivial
  | incNotZeroCas _ => exact h
  | inc => exact hr h
  | decAndTest _ => exact ⟨hr h.1, fun hl => ho.2 (h.2 hl)⟩
  | decAndMutexLock | lock => exact ⟨hr h.1, mt ho.1 h.2⟩
  | decAndMutexLockCas _ => exact ⟨hr h.1, mt ho.1 h.2.1, h.2.2⟩
  | unlock => exact ho.2 h
  | saturate _ _ => exact h

/-- Only the thread that moves has to be looked at again. -/
theorem Inv.frame {s s' : State} {t : Nat} {pc : Pc} (hi : Inv s)
    (hr : ∀ u, u ≠ t → u ∈ s.refs → u ∈ s'.refs)
    (ho : ∀ u, u ≠ t → (s'.owner = some u ↔ s.owner = some u))
    (hpcs : s'.pcs = (s.goto t pc).pcs) (hpc : PcOk s'.refs s'.owner t pc) :
    ∀ u, PcOk s'.refs s'.owner u (s'.pcs u) := by
  intro u
  rw [hpcs]
  by_cases hu : u = t
  · subst hu
    simpa [State.goto] using hpc
  · simpa [State.goto, hu] using (hi.threads u).frame (hr u hu) (ho u hu)

def After.pc : After → Pc
  | .ret _ _ => .idle
  | .unlock => .unlock

theorem finish_pcs (s : State) (t : Nat) (after : After) :
    (s.finish t after).pcs = (s.goto t after.pc).pcs := by
  cases after <;> rfl

@[simp] theorem finish_value (s : State) (t : Nat) (after : After) :
    (s.finish t after).value = s.value := by
  cases after <;> rfl

@[simp] theorem finish_refs (s : State) (t : Nat) (after : After) :
    (s.finish t after).refs = s.refs := by
  cases after <;> rfl

@[simp] theorem finish_owner (s : State) (t : Nat) (after : After) :
    (s.finish t after).owner = s.owner := by
  cases after <;> rfl

theorem After.Fails.pcOk {s : State} {t : Nat} {after : After} (h : after.Fails s t)
    (refs : List Nat) : PcOk refs s.owner t after.pc := by
  cases after with
  | ret _ _ => trivial
  | unlock => exact h

theorem After.Fails.finals {s : State} {t : Nat} {after : After} (h : after.Fails s t) :
    (s.finish t after).returns.countP Return.final = s.returns.countP Return.final := by
  cases after with
  | ret op result =>
    cases op with
    | inc | incNotZero => exact h.elim
    | decAndTest =>
      obtain rfl : result = false := h
      rfl
    | decAndMutexLock =>
      obtain rfl : result = false := h.1
      rfl
  | unlock => rfl

theorem owner_other {s : State} {t u : Nat} (hu : u ≠ t) (h : s.owner = none ∨ s.owner = some t) :
    s.owner ≠ some u := by
  rintro hs
  rw [hs] at h
  cases h with
  | inl h => cases h
  | inr h => exact hu (Option.some.inj h)

theorem move_inv {s s' : State} (hi : Inv s) (h : Move s s') : Inv s' := by
  have hc := hi.counts
  have hf := hi.finals
  cases h with
  | goto t pc hpc =>
    exact ⟨hc, hf, hi.frame (fun _ _ h => h) (fun _ _ => Iff.rfl) rfl hpc⟩
  | refuse t hz =>
    exact ⟨hc, hf, hi.frame (fun _ _ h => h) (fun _ _ => Iff.rfl) rfl trivial⟩
  | gain t op pos hop =>
    constructor
    · simp [State.store, State.acquire, hc]
    · have hne : s.value ≠ 0 := by omega
      simpa [State.finish, State.store, State.acquire, Return.final, hop, hne, State.goto] using hf
    · exact hi.frame (fun _ _ h => List.mem_cons_of_mem _ h) (fun _ _ => Iff.rfl) rfl trivial
  | lose t after holds more hfails =>
    constructor
    · simp [State.store, State.drop, hc, List.length_erase_of_mem holds]
    · have hcount := After.Fails.finals (s := (s.drop t).store (s.value - 1)) hfails
      rw [hcount]
      have hne : s.value - 1 ≠ 0 := by omega
      have hne' : s.value ≠ 0 := by omega
      simpa [State.store, State.drop, hne, hne'] using hf
    · have others (u : Nat) (hu : u ≠ t) (hm : u ∈ s.refs) :
          u ∈ (((s.drop t).store (s.value - 1)).finish t after).refs := by
        simpa [State.store, State.drop] using (List.mem_erase_of_ne hu).2 hm
      have pcs : (((s.drop t).store (s.value - 1)).finish t after).pcs =
          (s.goto t after.pc).pcs := by
        rw [finish_pcs]
        rfl
      have owner : (((s.drop t).store (s.value - 1)).finish t after).owner = s.owner := by
        simp [State.store, State.drop]
      apply hi.frame others (fun _ _ => by rw [owner]) pcs
      rw [owner]
      exact hfails.pcOk _
  | last t op holds hone hop inside =>
    constructor
    · simp [State.store, State.drop, List.length_erase_of_mem holds, ← hc, hone]
    · have none_before : s.returns.countP Return.final = 0 := by simpa [hone] using hf
      simp [State.finish, State.store, State.drop, State.goto, Return.final, hop, none_before]
    · exact hi.frame (fun u hu hm => (List.mem_erase_of_ne hu).2 hm) (fun _ _ => Iff.rfl) rfl
        trivial
  | enter t pc free hpc =>
    refine ⟨hc, hf, hi.frame (fun _ _ h => h) (fun u hu => ?_) rfl hpc⟩
    have := owner_other hu (Or.inl free)
    constructor
    · intro h
      exact absurd (Option.some.inj h).symm hu
    · exact fun h => absurd h this
  | leave t inside =>
    refine ⟨hc, hf, hi.frame (fun _ _ h => h) (fun u hu => ?_) rfl trivial⟩
    have := owner_other hu (Or.inr inside)
    exact ⟨nofun, fun h => absurd h this⟩
  | unlock t inside =>
    refine ⟨hc, hf, hi.frame (fun _ _ h => h) (fun u hu => ?_) rfl trivial⟩
    have := owner_other hu (Or.inr inside)
    exact ⟨nofun, fun h => absurd h this⟩
  | hand t u hidle holds =>
    constructor
    · have pos := List.length_pos_of_mem holds
      simp only [State.acquire, State.drop, List.length_cons, List.length_erase_of_mem holds]
      omega
    · exact hf
    · intro v
      by_cases hv : v = t
      · subst hv
        simp [State.acquire, State.drop, hidle, PcOk]
      · apply (hi.threads v).frame
        · exact fun hm => List.mem_cons_of_mem _ ((List.mem_erase_of_ne hv).2 hm)
        · exact Iff.rfl

/-! ## Runs -/

/-- The counter is the number of held references, and one decrement has returned
`true` if the counter is zero, none before. -/
def Counted (s : State) : Prop :=
  s.value = s.refs.length ∧ s.returns.countP Return.final = if s.value = 0 then 1 else 0

/-- The thread is in `ct_refcount_inc_not_zero` and about to read the counter. -/
def Pc.readsNotZero : Pc → Bool
  | .incNotZero | .incNotZeroCas _ => true
  | _ => false

/-- The call `op` of the thread `t` returns `result` in the step from `s` to `s'`. -/
def Returns (s s' : State) (t : Nat) (op : Op) (result : Bool) : Prop :=
  s'.returns = ⟨t, op, result⟩ :: s.returns

/-- What every step does. -/
structure StepSound (s : State) (l : Label) (s' : State) : Prop where
  final : (∃ t op, op.isDec = true ∧ Returns s s' t op true) ↔ s.value = 1 ∧ s'.value = 0
  dead : s.value = 0 → s'.value = 0
  refuses : s.value = 0 → ∀ t spurious, l = .turn t spurious → (s.pcs t).readsNotZero →
    Returns s s' t .incNotZero false
  locks : ∀ t result, Returns s s' t .decAndMutexLock result →
    (s'.owner = some t ↔ result = true)

theorem move_final {s s' : State} (hi : Inv s) (h : Move s s') :
    (∃ t op, op.isDec = true ∧ Returns s s' t op true) ↔ s.value = 1 ∧ s'.value = 0 := by
  have hf := hi.finals
  have hf' := (move_inv hi h).finals
  constructor
  · rintro ⟨t, op, hop, hr⟩
    have grows : s'.returns.countP Return.final = s.returns.countP Return.final + 1 := by
      rw [hr]
      simp [Return.final, hop]
    have alive : s.value ≠ 0 := by
      intro hz
      rw [hf', hf, if_pos hz] at grows
      split at grows <;> cases grows
    have hz' : s'.value = 0 := by
      by_contra hne
      rw [hf', if_neg hne] at grows
      cases grows
    cases h with
    | goto | refuse | enter | leave | unlock | hand => exact absurd hz' alive
    | gain => cases hz'
    | lose t after holds more =>
      have : s.value - 1 = 0 := by simpa [State.store] using hz'
      omega
    | last t op holds hone => exact ⟨hone, hz'⟩
  · rintro ⟨hone, hz'⟩
    cases h with
    | goto | refuse | enter | leave | unlock | hand => exact absurd (hone.symm.trans hz') (by decide)
    | gain => cases hz'
    | lose t after holds more => omega
    | last t op holds hone hop => exact ⟨t, op, hop, rfl⟩

theorem move_dead {s s' : State} (h : Move s s') (hz : s.value = 0) : s'.value = 0 := by
  cases h with
  | goto | refuse | enter | leave | unlock | hand => exact hz
  | gain _ _ pos => omega
  | lose _ _ _ more => omega
  | last _ _ _ hone => omega

theorem move_locks {s s' : State} (h : Move s s') {t : Nat} {result : Bool}
    (hr : Returns s s' t .decAndMutexLock result) : s'.owner = some t ↔ result = true := by
  have silent (hs : s'.returns = s.returns) : False := by
    rw [Returns, hs] at hr
    exact absurd (congrArg List.length hr) (by simp)
  cases h with
  | goto | enter | leave | hand => exact (silent rfl).elim
  | refuse => cases hr
  | gain _ _ _ hop =>
    cases hr
    cases hop
  | lose u after _ _ hfails =>
    cases after with
    | unlock => exact (silent rfl).elim
    | ret op r =>
      obtain ⟨rfl, rfl, rfl⟩ : u = t ∧ op = .decAndMutexLock ∧ r = result := by
        simpa [Returns, State.finish, State.store, State.drop, State.goto] using hr
      simpa [State.store, State.drop, hfails.1] using hfails.2
  | last u op _ _ _ inside =>
    obtain ⟨rfl, rfl, rfl⟩ : u = t ∧ op = .decAndMutexLock ∧ true = result := by
      simpa [Returns, State.finish, State.store, State.drop, State.goto] using hr
    simpa [State.store, State.drop] using inside rfl
  | unlock =>
    cases hr
    simp

/-- A dead counter is never revived: `ct_refcount_inc_not_zero` returns `false`
with the first access that reads zero, whatever it had read before. -/
theorem turn_refuses {b : Backend} {s s' : State} {t : Nat} {spurious : Bool} (hi : Inv s)
    (hz : s.value = 0) (hpc : (s.pcs t).readsNotZero = true)
    (hstep : turn b t spurious s = some s') : Returns s s' t .incNotZero false := by
  have refused : Returns s (incNotZeroTurn b t s) t .incNotZero false := by
    unfold incNotZeroTurn
    rw [if_pos hz]
    rfl
  have ok := hi.threads t
  unfold turn at hstep
  cases hp : s.pcs t with
  | incNotZero =>
    rw [hp] at hstep
    cases hstep
    exact refused
  | incNotZeroCas old =>
    rw [hp] at hstep ok
    cases hstep
    have stale : ¬ (s.value = old ∧ (spurious && b.weak) = false) := by
      rintro ⟨hv, -⟩
      have := ok.1
      omega
    unfold incNotZeroCasTurn
    rw [if_neg stale]
    exact refused
  | idle | inc | decAndTest | decAndMutexLock | decAndMutexLockCas | lock | unlock | saturate =>
    rw [hp] at hpc
    cases hpc

theorem step_sound {b : Backend} {s s' : State} {l : Label} (hi : Inv s)
    (hb : s.refs.length ≤ refcountMax) (hb' : s'.refs.length ≤ refcountMax)
    (hstep : step b s l = some s') : StepSound s l s' where
  final := move_final hi (step_move hi hb hb' hstep)
  dead := move_dead (step_move hi hb hb' hstep)
  refuses := by
    rintro hz t spurious rfl hpc
    exact turn_refuses hi hz hpc hstep
  locks := fun _ _ hr => move_locks (step_move hi hb hb' hstep) hr

end Coter.Ref
