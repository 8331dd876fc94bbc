import Coter.Sync.Ref

/-!
# The two backends of the reference counter

`ref.c` has each operation twice: with atomic accesses, and inside a process-wide mutex. Here
both are the bodies as they stand, run by one thread that nobody interferes with:

* `lockFree`, `fallback`: the operations of the two backends;
* `backends_agree`: they return the same and leave the same behind.
-/

namespace Coter.Ref

/-! ## Memory -/

/-- The counter, and whether the mutex of the caller is locked. -/
structure Memory where
  value : BitVec 32
  lock : Bool
  deriving DecidableEq, Repr

/-- `REFCOUNT_MAX` -/
def REFCOUNT_MAX : BitVec 32 := 0x7fffffff

/-- `REFCOUNT_SATURATED` -/
def REFCOUNT_SATURATED : BitVec 32 := 0xc0000000

/-- `refcount_saturate`. -/
def Memory.saturate (m : Memory) (type : Saturation) : Memory :=
  let poison := REFCOUNT_SATURATED
  let poison := if type.code ≤ Saturation.subUseAfterFree.code
    then poison + BitVec.ofNat 32 type.code else poison
  { m with value := poison }

/-- `ct_mutex_lock` of the caller's mutex. It does not return while the mutex is locked. -/
def Memory.lockMutex (m : Memory) : Option Memory :=
  if m.lock then none else some { m with lock := true }

/-- `ct_mutex_unlock` of the caller's mutex. -/
def Memory.unlockMutex (m : Memory) : Memory := { m with lock := false }

/-! ## Atomic accesses -/

/-- An exchange that may fail for no reason where it is weak: whether it took place, what was
read, and the memory after it. -/
def Memory.compareExchange (m : Memory) (weak spurious : Bool) (old desired : BitVec 32) :
    Bool × BitVec 32 × Memory :=
  if m.value = old ∧ (spurious && weak) = false then (true, old, { m with value := desired })
  else (false, m.value, m)

section LockFree

variable (weak : Bool)

/-- The loop of `ct_refcount_inc_not_zero`. `spurious` tells which of its exchanges fail for no
reason. -/
def incNotZeroLoop : Nat → List Bool → BitVec 32 → Memory → Option (Bool × Memory)
  | 0, _, _, _ => none
  | turns + 1, spurious, old, m =>
    if old = 0 then some (false, m)
    else if old ≥ REFCOUNT_SATURATED then some (true, m)
    else if old > REFCOUNT_MAX then some (true, m.saturate .addNotZeroOverflow)
    else
      let desired := old + 1
      match m.compareExchange weak (spurious.headD false) old desired with
      | (true, old, m) =>
        if old ≥ REFCOUNT_MAX then some (true, m.saturate .addNotZeroOverflow) else some (true, m)
      | (false, old, m) => incNotZeroLoop turns spurious.tail old m

/-- `ct_refcount_inc_not_zero`. -/
def incNotZeroLockFree (turns : Nat) (spurious : List Bool) (m : Memory) : Option (Bool × Memory) :=
  let old := m.value
  incNotZeroLoop weak turns spurious old m

/-- `ct_refcount_inc`. -/
def incLockFree (m : Memory) : Bool × Memory :=
  let old := m.value
  let m := { m with value := old + 1 }
  if old = 0 then (true, m.saturate .addUseAfterFree)
  else if old ≥ REFCOUNT_MAX then (true, m.saturate .addOverflow)
  else (true, m)

/-- `ct_refcount_dec_and_test`. -/
def decAndTestLockFree (m : Memory) : Bool × Memory :=
  let old := m.value
  let m := { m with value := old - 1 }
  if old > 1 ∧ old ≤ REFCOUNT_MAX then (false, m)
  else if old = 1 then (true, m)
  else (false, m.saturate .subUseAfterFree)

/-- The loop of `ct_refcount_dec_and_mutex_lock`, and what follows it. -/
def decAndMutexLockLoop : Nat → List Bool → BitVec 32 → Memory → Option (Bool × Memory)
  | 0, _, _, _ => none
  | turns + 1, spurious, value, m =>
    if value ≥ REFCOUNT_SATURATED then some (false, m)
    else if value = 1 then do
      let m ← m.lockMutex
      let (last, m) := decAndTestLockFree m
      if last then return (true, m)
      return (false, m.unlockMutex)
    else if value > REFCOUNT_MAX then some (false, m.saturate .subUseAfterFree)
    else
      let desired := value - 1
      if desired > value then some (false, m.saturate .subUseAfterFree)
      else
        match m.compareExchange weak (spurious.headD false) value desired with
        | (true, _, m) => some (false, m)
        | (false, value, m) => decAndMutexLockLoop turns spurious.tail value m

/-- `ct_refcount_dec_and_mutex_lock`. -/
def decAndMutexLockLockFree (turns : Nat) (spurious : List Bool) (m : Memory) :
    Option (Bool × Memory) :=
  let value := m.value
  decAndMutexLockLoop weak turns spurious value m

/-- The operations with atomic accesses. Only `__atomic_compare_exchange_n` is weak. -/
def lockFree (turns : Nat) (spurious : List Bool) (op : Op) (m : Memory) :
    Option (Bool × Memory) :=
  match op with
  | .inc => some (incLockFree m)
  | .incNotZero => incNotZeroLockFree weak turns spurious m
  | .decAndTest => some (decAndTestLockFree m)
  | .decAndMutexLock => decAndMutexLockLockFree weak turns spurious m

end LockFree

/-! ## The process-wide mutex -/

/-- The memory of the backend without atomics, with its own mutex. -/
structure Fallback extends Memory where
  sMutex : Bool
  deriving DecidableEq, Repr

/-- `ct_mutex_lock(&s_mutex)` -/
def Fallback.enter (m : Fallback) : Option Fallback :=
  if m.sMutex then none else some { m with sMutex := true }

/-- `ct_mutex_unlock(&s_mutex)` -/
def Fallback.leave (m : Fallback) : Fallback := { m with sMutex := false }

def Fallback.saturate (m : Fallback) (type : Saturation) : Fallback :=
  { m with toMemory := m.toMemory.saturate type }

/-- `ct_refcount_inc_not_zero`. -/
def incNotZeroFallback (m : Fallback) : Option (Bool × Fallback) := do
  let m ← m.enter
  let old := m.value
  if old = 0 then return (false, m.leave)
  if old ≥ REFCOUNT_SATURATED then return (true, m.leave)
  if old > REFCOUNT_MAX then return (true, (m.saturate .addNotZeroOverflow).leave)
  let m := { m with value := old + 1 }
  let m := if old ≥ REFCOUNT_MAX then m.saturate .addNotZeroOverflow else m
  return (true, m.leave)

/-- `ct_refcount_inc`. -/
def incFallback (m : Fallback) : Option (Bool × Fallback) := do
  let m ← m.enter
  let old := m.value
  let m := { m with value := old + 1 }
  let m := if old = 0 then m.saturate .addUseAfterFree
    else if old ≥ REFCOUNT_MAX then m.saturate .addOverflow
    else m
  return (true, m.leave)

/-- `ct_refcount_dec_and_test`. -/
def decAndTestFallback (m : Fallback) : Option (Bool × Fallback) := do
  let m ← m.enter
  let old := m.value
  let m := { m with value := old - 1 }
  if old = 1 then return (true, m.leave)
  let m := if old = 0 ∨ old > REFCOUNT_MAX then m.saturate .subUseAfterFree else m
  return (false, m.leave)

/-- `ct_refcount_dec_and_mutex_lock`. -/
def decAndMutexLockFallback (m : Fallback) : Option (Bool × Fallback) := do
  let m ← m.enter
  if m.value ≥ REFCOUNT_SATURATED then return (false, m.leave)
  if m.value ≠ 1 then
    let m := if m.value = 0 then m.saturate .subUseAfterFree
      else if m.value > REFCOUNT_MAX then m.saturate .subUseAfterFree
      else { m with value := m.value - 1 }
    return (false, m.leave)
  let m := m.leave
  let locked ← m.lockMutex
  let (last, m) ← decAndTestFallback { m with toMemory := locked }
  if last then return (true, m)
  return (false, { m with toMemory := m.unlockMutex })

/-- The operations inside the process-wide mutex. -/
def fallback (op : Op) (m : Memory) : Option (Bool × Fallback) :=
  match op with
  | .inc => incFallback ⟨m, false⟩
  | .incNotZero => incNotZeroFallback ⟨m, false⟩
  | .decAndTest => decAndTestFallback ⟨m, false⟩
  | .decAndMutexLock => decAndMutexLockFallback ⟨m, false⟩

/-! ## Agreement -/

section

variable {weak spurious : Bool} {m : Memory}

theorem compareExchange_done (h : (spurious && weak) = false) (desired : BitVec 32) :
    m.compareExchange weak spurious m.value desired =
      (true, m.value, { m with value := desired }) := if_pos ⟨rfl, h⟩

theorem compareExchange_spurious (h : (spurious && weak) = true) (desired : BitVec 32) :
    m.compareExchange weak spurious m.value desired = (false, m.value, m) :=
  if_neg fun both => by simp [h] at both

theorem fewer_spurious {spurious : List Bool} {turns : Nat}
    (h : (spurious.headD false && weak) = true) (enough : spurious.length < turns + 1) :
    spurious.tail.length < turns := by
  cases spurious with
  | nil => simp at h
  | cons s rest => exact Nat.lt_of_succ_lt_succ enough

/-- A valid count is below the poison values. -/
theorem valid_lt {v : BitVec 32} (valid : v ≤ REFCOUNT_MAX) : ¬v ≥ REFCOUNT_SATURATED := by
  unfold REFCOUNT_MAX at valid
  unfold REFCOUNT_SATURATED
  bv_omega

/-- However often the exchange fails for no reason, it takes place at last. -/
theorem incNotZeroLoop_valid (live : m.value ≠ 0) (valid : m.value ≤ REFCOUNT_MAX)
    {spurious : List Bool} {turns : Nat} (enough : spurious.length < turns) :
    incNotZeroLoop weak turns spurious m.value m =
      some (true, if m.value ≥ REFCOUNT_MAX
        then { m with value := m.value + 1 }.saturate .addNotZeroOverflow
        else { m with value := m.value + 1 }) := by
  induction turns generalizing spurious with
  | zero => exact absurd enough (Nat.not_lt_zero _)
  | succ turns ih =>
    have above : ¬m.value > REFCOUNT_MAX := fun beyond => by bv_omega
    rw [incNotZeroLoop, if_neg live, if_neg (valid_lt valid), if_neg above]
    by_cases fails : (spurious.headD false && weak) = true
    · dsimp only
      rw [compareExchange_spurious fails]
      exact ih (fewer_spurious fails enough)
    · dsimp only
      rw [compareExchange_done (by simpa using fails)]
      dsimp only
      split <;> rfl

/-- The same for a decrement that is not the last one. -/
theorem decAndMutexLockLoop_valid (more : 1 < m.value) (valid : m.value ≤ REFCOUNT_MAX)
    {spurious : List Bool} {turns : Nat} (enough : spurious.length < turns) :
    decAndMutexLockLoop weak turns spurious m.value m =
      some (false, { m with value := m.value - 1 }) := by
  induction turns generalizing spurious with
  | zero => exact absurd enough (Nat.not_lt_zero _)
  | succ turns ih =>
    have above : ¬m.value > REFCOUNT_MAX := fun beyond => by bv_omega
    have last : m.value ≠ 1 := fun one => by bv_omega
    have wraps : ¬m.value - 1 > m.value := fun beyond => by bv_omega
    rw [decAndMutexLockLoop, if_neg (valid_lt valid), if_neg last, if_neg above]
    dsimp only
    rw [if_neg wraps]
    by_cases fails : (spurious.headD false && weak) = true
    · rw [compareExchange_spurious fails]
      exact ih (fewer_spurious fails enough)
    · rw [compareExchange_done (by simpa using fails)]

/-- The result of the backend without atomics, which leaves its mutex free. -/
def Memory.released (r : Bool × Memory) : Bool × Fallback := (r.1, ⟨r.2, false⟩)

theorem enter_free (m : Memory) : (Fallback.mk m false).enter = some ⟨m, true⟩ := rfl

theorem inc_agrees (m : Memory) :
    incFallback ⟨m, false⟩ = some (Memory.released (incLockFree m)) := by
  rw [incFallback, enter_free, incLockFree]
  dsimp only [Option.bind_eq_bind, Option.bind_some]
  by_cases free : m.value = 0
  · simp only [if_pos free]
    rfl
  by_cases full : m.value ≥ REFCOUNT_MAX
  · simp only [if_neg free, if_pos full]
    rfl
  · simp only [if_neg free, if_neg full]
    rfl

/-- The tests of a decrement in the two orders. -/
theorem decAndTest_agrees (m : Memory) :
    decAndTestFallback ⟨m, false⟩ = some (Memory.released (decAndTestLockFree m)) := by
  rw [decAndTestFallback, enter_free, decAndTestLockFree]
  dsimp only [Option.bind_eq_bind, Option.bind_some]
  by_cases last : m.value = 1
  · have few : ¬(m.value > 1 ∧ m.value ≤ REFCOUNT_MAX) := fun both => by bv_omega
    rw [if_pos last, if_neg few, if_pos last]
    rfl
  by_cases valid : m.value > 1 ∧ m.value ≤ REFCOUNT_MAX
  · have live : ¬(m.value = 0 ∨ m.value > REFCOUNT_MAX) := by bv_omega
    rw [if_neg last, if_neg live, if_pos valid]
    rfl
  · have invalid : m.value = 0 ∨ m.value > REFCOUNT_MAX := by bv_omega
    rw [if_neg last, if_pos invalid, if_neg valid, if_neg last]
    rfl

theorem incNotZero_agrees (m : Memory) {spurious : List Bool} {turns : Nat}
    (enough : spurious.length < turns) :
    incNotZeroFallback ⟨m, false⟩ =
      (incNotZeroLockFree weak turns spurious m).map Memory.released := by
  obtain ⟨turns, rfl⟩ : ∃ n, turns = n + 1 := ⟨turns - 1, by omega⟩
  rw [incNotZeroFallback, enter_free, incNotZeroLockFree]
  dsimp only [Option.bind_eq_bind, Option.bind_some]
  by_cases free : m.value = 0
  · rw [if_pos free, incNotZeroLoop, if_pos free]
    rfl
  by_cases poisoned : m.value ≥ REFCOUNT_SATURATED
  · rw [if_neg free, if_pos poisoned, incNotZeroLoop, if_neg free, if_pos poisoned]
    rfl
  by_cases invalid : m.value > REFCOUNT_MAX
  · rw [if_neg free, if_neg poisoned, if_pos invalid, incNotZeroLoop, if_neg free,
      if_neg poisoned, if_pos invalid]
    rfl
  · rw [if_neg free, if_neg poisoned, if_neg invalid,
      incNotZeroLoop_valid free (BitVec.not_lt.1 invalid) enough]
    split <;> rfl

theorem decAndMutexLock_agrees (m : Memory) {spurious : List Bool} {turns : Nat}
    (enough : spurious.length < turns) :
    decAndMutexLockFallback ⟨m, false⟩ =
      (decAndMutexLockLockFree weak turns spurious m).map Memory.released := by
  obtain ⟨turns, rfl⟩ : ∃ n, turns = n + 1 := ⟨turns - 1, by omega⟩
  rw [decAndMutexLockFallback, enter_free, decAndMutexLockLockFree]
  dsimp only [Option.bind_eq_bind, Option.bind_some]
  by_cases poisoned : m.value ≥ REFCOUNT_SATURATED
  · rw [if_pos poisoned, decAndMutexLockLoop, if_pos poisoned]
    rfl
  by_cases last : m.value = 1
  · -- Both take the mutex of the caller and decrement once more under it.
    rw [if_neg poisoned, if_neg (not_not.2 last), decAndMutexLockLoop, if_neg poisoned,
      if_pos last]
    dsimp only [Fallback.leave]
    cases held : m.lockMutex with
    | none => rfl
    | some locked =>
      dsimp only [Option.bind_eq_bind, Option.bind_some]
      rw [decAndTest_agrees, Option.bind_some]
      obtain ⟨last, final⟩ := decAndTestLockFree locked
      cases last <;> rfl
  by_cases free : m.value = 0
  · have wraps : m.value - 1 > m.value := by bv_omega
    have valid : ¬m.value > REFCOUNT_MAX := by bv_omega
    rw [if_neg poisoned, if_pos last, if_pos free, decAndMutexLockLoop, if_neg poisoned,
      if_neg last, if_neg valid]
    dsimp only
    rw [if_pos wraps]
    rfl
  by_cases invalid : m.value > REFCOUNT_MAX
  · rw [if_neg poisoned, if_pos last, if_neg free, if_pos invalid, decAndMutexLockLoop,
      if_neg poisoned, if_neg last, if_pos invalid]
    rfl
  · rw [if_neg poisoned, if_pos last, if_neg free, if_neg invalid,
      decAndMutexLockLoop_valid (by bv_omega) (BitVec.not_lt.1 invalid) enough]
    rfl

theorem incNotZero_returns (m : Memory) : (incNotZeroFallback ⟨m, false⟩).isSome := by
  rw [incNotZeroFallback, enter_free]
  dsimp only [Option.bind_eq_bind, Option.bind_some]
  split_ifs <;> rfl

/-- Only the last decrement waits, for a mutex that is locked. -/
theorem decAndMutexLock_returns (m : Memory) :
    (decAndMutexLockFallback ⟨m, false⟩).isSome ↔ ¬(m.value = 1 ∧ m.lock = true) := by
  rw [decAndMutexLockFallback, enter_free]
  dsimp only [Option.bind_eq_bind, Option.bind_some]
  by_cases poisoned : m.value ≥ REFCOUNT_SATURATED
  · have more : m.value ≠ 1 := fun one => by
      unfold REFCOUNT_SATURATED at poisoned
      bv_omega
    rw [if_pos poisoned]
    exact iff_of_true rfl fun both => more both.1
  by_cases last : m.value = 1
  · rw [if_neg poisoned, if_neg (not_not.2 last)]
    dsimp only [Fallback.leave]
    unfold Memory.lockMutex
    cases held : m.lock with
    | true => exact iff_of_false Bool.false_ne_true fun free => free ⟨last, rfl⟩
    | false =>
      refine iff_of_true ?_ fun both => Bool.false_ne_true both.2
      simp only [Bool.false_eq_true, ↓reduceIte, Option.bind_some]
      rw [decAndTest_agrees, Option.bind_some]
      obtain ⟨last, final⟩ := decAndTestLockFree { m with lock := true }
      cases last <;> rfl
  · rw [if_neg poisoned, if_pos last]
    exact iff_of_true rfl fun both => last both.1

/-- **Two backends.** A call runs to the same result, the same counter and the same state of the
caller's mutex in both, for every value of the counter and however often the exchange fails for
no reason; it returns in both unless it waits for that mutex. -/
theorem backends_agree (weak : Bool) (spurious : List Bool) (op : Op) (m : Memory) :
    ∃ turns, ∀ more, turns ≤ more →
      fallback op m = (lockFree weak more spurious op m).map Memory.released ∧
        ((fallback op m).isSome ↔ ¬(op = .decAndMutexLock ∧ m.value = 1 ∧ m.lock = true)) := by
  refine ⟨spurious.length + 1, fun more enough => ?_⟩
  have few : spurious.length < more := enough
  cases op with
  | inc =>
    refine ⟨inc_agrees m, iff_of_true ?_ nofun⟩
    rw [fallback, inc_agrees]
    rfl
  | decAndTest =>
    refine ⟨decAndTest_agrees m, iff_of_true ?_ nofun⟩
    rw [fallback, decAndTest_agrees]
    rfl
  | incNotZero =>
    exact ⟨incNotZero_agrees m few, iff_of_true (incNotZero_returns m) nofun⟩
  | decAndMutexLock =>
    refine ⟨decAndMutexLock_agrees m few, ?_⟩
    rw [fallback, decAndMutexLock_returns]
    simp

end

end Coter.Ref
