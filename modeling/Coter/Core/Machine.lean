import Coter.Lib.Blocks

/-!
# The C machine

Unsigned arithmetic of fixed width, and `memcpy` on a block of storage. An
access outside the storage is a fault: the C program has undefined behaviour
there and nothing after it is described.
-/

namespace Coter

open Lib.Blocks

/-- `uint32_t` arithmetic. -/
def u32 (n : Nat) : Nat := n % 2 ^ 32

/-- `size_t` arithmetic on a 64-bit platform. -/
def usize (n : Nat) : Nat := n % 2 ^ 64

/-- `a - b` in `uint32_t`, for `b` below `2 ^ 32`. -/
def u32Sub (a b : Nat) : Nat := u32 (a + (2 ^ 32 - b))

/-- Conversion to `int`, with the usual two's complement. -/
def i32 (n : Int) : Int := n.bmod (2 ^ 32)

/-- Conversion to `int64_t`. -/
def i64 (n : Int) : Int := n.bmod (2 ^ 64)

/-- `a - b` in `size_t`, for `b` below `2 ^ 64`. -/
def usizeSub (a b : Nat) : Nat := usize (a + (2 ^ 64 - b))

theorem u32_lt (n : Nat) : u32 n < 2 ^ 32 := Nat.mod_lt _ (by decide)

theorem u32_of_lt {n : Nat} (h : n < 2 ^ 32) : u32 n = n := Nat.mod_eq_of_lt h

/-- `--n` -/
theorem u32_pred {n : Nat} (h : 0 < n) (h' : n ≤ 2 ^ 32) : u32 (n + (2 ^ 32 - 1)) = n - 1 := by
  unfold u32
  omega

theorem usize_of_lt {n : Nat} (h : n < 2 ^ 64) : usize n = n := Nat.mod_eq_of_lt h

theorem u32Sub_of_le {a b : Nat} (h : b ≤ a) (ha : a < 2 ^ 32) : u32Sub a b = a - b := by
  unfold u32Sub u32
  omega

theorem i64_of_range {n : Int} (h : -(2 ^ 63) ≤ n) (h' : n < 2 ^ 63) : i64 n = n := by
  unfold i64
  rw [Int.bmod_def]
  omega

theorem i32_of_range {n : Int} (h : -(2 ^ 31) ≤ n) (h' : n < 2 ^ 31) : i32 n = n := by
  unfold i32
  rw [Int.bmod_def]
  omega

theorem i32_lt (n : Int) : i32 n < 2 ^ 31 := by
  unfold i32
  rw [Int.bmod_def]
  omega

theorem usizeSub_of_le {a b : Nat} (h : b ≤ a) (ha : a < 2 ^ 64) : usizeSub a b = a - b := by
  unfold usizeSub usize
  omega

/-- Why a call has no defined result. `fuel` marks a loop cut short by the model. -/
inductive Fault
  | bounds
  | null
  | fuel
  deriving DecidableEq, Repr

variable {β : Type}

/-- `memcpy` out of the storage `m`: `w` cells at offset `o`. -/
def load (m : List β) (o w : Nat) : Except Fault (List β) :=
  if o + w ≤ m.length then .ok (read m o w) else .error .bounds

/-- `memcpy` into the storage `m`: the cells `b` at offset `o`. -/
def store (m : List β) (o : Nat) (b : List β) : Except Fault (List β) :=
  if o + b.length ≤ m.length then .ok (write m o b) else .error .bounds

theorem load_ok {m : List β} {o w : Nat} (h : o + w ≤ m.length) : load m o w = .ok (read m o w) := by
  simp [load, h]

theorem store_ok {m b : List β} {o : Nat} (h : o + b.length ≤ m.length) :
    store m o b = .ok (write m o b) := by
  simp [store, h]

theorem store_behind {m a b : List β} {o : Nat} (h : o + (a.length + b.length) ≤ m.length) :
    store (write m o a) (o + a.length) b = .ok (write m o (a ++ b)) := by
  rw [store_ok (by rw [write_length (by omega)]; omega), write_write h]

theorem store_bounds {m b : List β} {o : Nat} (h : m.length < o + b.length) :
    store m o b = .error .bounds := by
  simp [store, show ¬ o + b.length ≤ m.length by omega]

@[simp] theorem ok_bind {ε α γ : Type} (a : α) (k : α → Except ε γ) :
    ((Except.ok a : Except ε α) >>= k) = k a := rfl

@[simp] theorem error_bind {ε α γ : Type} (e : ε) (k : α → Except ε γ) :
    ((Except.error e : Except ε α) >>= k) = .error e := rfl

theorem ok_of_bind {ε α γ : Type} {x : Except ε α} {k : α → Except ε γ} {r : γ}
    (h : (x >>= k) = .ok r) : ∃ a, x = .ok a ∧ k a = .ok r := by
  cases x with
  | error e => cases h
  | ok a => exact ⟨a, rfl, h⟩

end Coter
