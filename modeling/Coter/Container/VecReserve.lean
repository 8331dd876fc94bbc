import Coter.Container.Vec
import Coter.Lib.Smear

/-!
# Growth of the storage

`ct_vector_impl_reserve` with the `size_t` of a 32-bit and of a 64-bit platform.

* `implReserveOn_bits64`: on a 64-bit platform it is the `implReserve` that the vectors use;
* `rounding_exact`: the rounding does not overflow;
* `reserve_exact`: a request is refused or met, and what is grown is grown to the least
  power of two.
-/

namespace Coter.Vec

open Lib.Smear

variable {β : Type}

/-- The platforms, by the width of `size_t`. -/
inductive Platform
  | bits32
  | bits64
  deriving DecidableEq, Repr

namespace Platform

def bits : Platform → Nat
  | .bits32 => 32
  | .bits64 => 64

/-- `size_t` arithmetic. -/
def size (p : Platform) (n : Nat) : Nat := n % 2 ^ p.bits

end Platform

variable (p : Platform)

/-- The bits that are set in `target_cap` before it is incremented. -/
def smeared (newCap : Nat) : Nat :=
  let t := p.size (newCap + (2 ^ p.bits - 1))
  let t := t ||| t >>> 1
  let t := t ||| t >>> 2
  let t := t ||| t >>> 4
  let t := t ||| t >>> 8
  let t := t ||| t >>> 16
  match p with
  | .bits32 => t
  | .bits64 => t ||| t >>> 32

/-- The rounding of `ct_vector_impl_reserve`. -/
def roundUpOn (newCap : Nat) : Nat := p.size (smeared p newCap + 1)

/-- `ct_vector_impl_reserve` -/
def implReserveOn (w : Nat) (g : Option (Grant β)) (v : Vec β) (newCap : Nat) : Bool × Vec β :=
  if w = 0 then (false, v)
  else if newCap ≤ v.cap then (true, v)
  else if vecMemoryMax / w < newCap then (false, v)
  else
    let targetCap := roundUpOn p newCap
    if targetCap < newCap then (false, v)
    else if vecMemoryMax / w < targetCap then (false, v)
    else match v.realloc (p.size (w * targetCap)) g with
      | none => (false, v)
      | some ptr => (true, { v with ptr := some ptr, cap := targetCap })

theorem roundUpOn_bits64 (n : Nat) : roundUpOn .bits64 n = roundUp n := rfl

/-- The vectors are those of a 64-bit platform. -/
theorem implReserveOn_bits64 (w : Nat) (g : Option (Grant β)) (v : Vec β) (newCap : Nat) :
    implReserveOn .bits64 w g v newCap = implReserve w g v newCap := by
  unfold implReserveOn implReserve
  rw [roundUpOn_bits64]
  rfl

/-! ## The rounding -/

/-- As many shifts as cover the word. -/
def Platform.shifts : Platform → Nat
  | .bits32 => 5
  | .bits64 => 6

theorem bits_eq : p.bits = 2 ^ p.shifts := by cases p <;> rfl

theorem smeared_eq {n : Nat} (pos : 0 < n) (small : n ≤ 2 ^ p.bits) :
    smeared p n = smear (n - 1) p.shifts := by
  have pred : p.size (n + (2 ^ p.bits - 1)) = n - 1 := by
    unfold Platform.size
    rw [show n + (2 ^ p.bits - 1) = n - 1 + 2 ^ p.bits by omega, Nat.add_mod_right,
      Nat.mod_eq_of_lt (by omega)]
  unfold smeared
  rw [pred]
  cases p with
  | bits32 => rfl
  | bits64 => rfl

/-- A request that passes the first test is rounded without an overflow. -/
theorem rounding_exact {n : Nat} (pos : 0 < n) (limit : n ≤ vecMemoryMax) :
    smeared p n + 1 < 2 ^ p.bits ∧ LeastPower n (roundUpOn p n) := by
  have word : 2 ^ 31 < 2 ^ p.bits := by cases p <;> decide
  have top : vecMemoryMax = 2 ^ 31 := rfl
  have next : smeared p n + 1 = 2 ^ Nat.clog 2 n := by
    rw [smeared_eq p pos (by omega), smear_add_one (by rw [← bits_eq]; omega),
      Nat.sub_add_cancel pos]
  have least := clog_least n
  rw [← next] at least
  have fits : smeared p n + 1 < 2 ^ p.bits := by
    have := least.le (k := 31) (by omega)
    omega
  refine ⟨fits, ?_⟩
  rw [roundUpOn, Platform.size, Nat.mod_eq_of_lt fits]
  exact least

/-! ## The request -/

/-- The storage has been reallocated to a larger capacity: the least power of two that
meets the request, at a number of bytes that is neither over the limit nor wrapped. -/
structure Grown (w : Nat) (g : Option (Grant β)) (v : Vec β) (newCap : Nat) (r : Vec β) :
    Prop where
  short : v.cap < newCap
  least : LeastPower newCap r.cap
  limit : r.cap * w ≤ vecMemoryMax
  product : w * r.cap < 2 ^ p.bits
  moved : r.ptr.isSome ∧ r.ptr = v.realloc (w * r.cap) g
  size : r.size = v.size

/-- The request is refused and nothing changes, or it is met, by the old storage or a
new one. -/
inductive Reserved (w : Nat) (g : Option (Grant β)) (v : Vec β) (newCap : Nat) :
    Bool × Vec β → Prop
  | refused : Reserved w g v newCap (false, v)
  | enough (h : newCap ≤ v.cap) : Reserved w g v newCap (true, v)
  | grown {r : Vec β} (h : Grown p w g v newCap r) : Reserved w g v newCap (true, r)

theorem implReserveOn_reserved (w : Nat) (g : Option (Grant β)) (v : Vec β) (newCap : Nat) :
    Reserved p w g v newCap (implReserveOn p w g v newCap) := by
  unfold implReserveOn
  split
  · exact .refused
  next hw =>
  split
  · next enough => exact .enough enough
  next short =>
  split
  · exact .refused
  next within =>
  have positive : 0 < w := Nat.pos_of_ne_zero hw
  have room : newCap ≤ vecMemoryMax := by
    have := Nat.div_le_self vecMemoryMax w
    omega
  have least := (rounding_exact p (n := newCap) (by omega) room).2
  dsimp only
  split
  · exact .refused
  split
  · exact .refused
  next rounded =>
  have limit : roundUpOn p newCap * w ≤ vecMemoryMax :=
    (Nat.le_div_iff_mul_le positive).1 (by omega)
  have product : w * roundUpOn p newCap < 2 ^ p.bits := by
    have word : vecMemoryMax < 2 ^ p.bits := by cases p <;> decide
    rw [Nat.mul_comm]
    omega
  rw [Platform.size, Nat.mod_eq_of_lt product]
  cases granted : v.realloc (w * roundUpOn p newCap) g with
  | none => exact .refused
  | some ptr => exact .grown ⟨by omega, least, limit, product, ⟨rfl, granted.symm⟩, rfl⟩

/-- The least power of two that meets the request is within the limit. -/
def Affordable (w newCap : Nat) : Prop := ∃ c, LeastPower newCap c ∧ c * w ≤ vecMemoryMax

/-- The vector has the capacity, or the allocator grants one within the limit. -/
def Provided (w : Nat) (v : Vec β) (newCap : Nat) (g : Option (Grant β)) : Prop :=
  newCap ≤ v.cap ∨ g.isSome ∧ Affordable w newCap

theorem implReserveOn_provided {w : Nat} (hw : 0 < w) {g : Option (Grant β)} {v : Vec β}
    {newCap : Nat} (h : Provided w v newCap g) : (implReserveOn p w g v newCap).1 = true := by
  unfold implReserveOn
  rw [if_neg (by omega)]
  by_cases enough : newCap ≤ v.cap
  · rw [if_pos enough]
  · obtain ⟨granted, c, least, limit⟩ := h.resolve_left enough
    obtain ⟨grant, rfl⟩ := Option.isSome_iff_exists.1 granted
    have above : newCap ≤ c := least.1.2
    have within : c ≤ vecMemoryMax / w := (Nat.le_div_iff_mul_le hw).2 limit
    have small := Nat.div_le_self vecMemoryMax w
    have rounded : roundUpOn p newCap = c :=
      (rounding_exact p (n := newCap) (by omega) (by omega)).2.unique least
    rw [if_neg enough, if_neg (by omega)]
    dsimp only
    rw [rounded, if_neg (by omega), if_neg (by omega)]
    rfl

/-- **Reserving is exact.** On both platforms, `ct_vector_impl_reserve` returns `false` and
leaves the vector alone or returns `true` with the capacity asked for, grows to the least
power of two only and within the limit, overflows neither where it rounds nor where it
multiplies, and does not refuse what is within the limit and granted. -/
theorem reserve_exact (w : Nat) (g : Option (Grant β)) (v : Vec β) (newCap : Nat) :
    Reserved p w g v newCap (implReserveOn p w g v newCap) ∧
      (0 < w → v.cap < newCap → newCap ≤ vecMemoryMax / w →
        smeared p newCap + 1 < 2 ^ p.bits ∧ LeastPower newCap (roundUpOn p newCap)) ∧
      (0 < w → Provided w v newCap g → (implReserveOn p w g v newCap).1 = true) := by
  refine ⟨implReserveOn_reserved p w g v newCap, ?_, fun hw => implReserveOn_provided p hw⟩
  intro _ short within
  have := Nat.div_le_self vecMemoryMax w
  exact rounding_exact p (by omega) (by omega)

end Coter.Vec
