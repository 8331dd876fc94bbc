import Mathlib

/-!
# Random numbers

The generator of `coter/core/rand.h`, and its samples of a range. An `int64_t` is an `Int`
that every operation checks, and the rejection loop may run out of `fuel`.
-/

namespace Coter.Rand

/-- `ct_random_t`. -/
@[ext] structure Random where
  s0 : BitVec 64
  s1 : BitVec 64
deriving DecidableEq, Repr

/-- Why there is no result: a signed overflow, which has no defined behaviour, or a loop cut
short by the model. -/
inductive Stop
  | overflow
  | fuel
deriving DecidableEq, Repr

/-- A result of type `int64_t`. -/
def checked (n : Int) : Except Stop Int :=
  if -(2 ^ 63) ≤ n ∧ n < 2 ^ 63 then .ok n else .error .overflow

/-- `random_rotl`. -/
def random_rotl (x : BitVec 64) (k : Nat) : BitVec 64 := x <<< k ||| x >>> (64 - k)

/-- `random_splitmix64`: a number and the new `state`. -/
def random_splitmix64 (state : BitVec 64) : BitVec 64 × BitVec 64 :=
  let state := state + 0x9E3779B97F4A7C15
  let z := state
  let z := (z ^^^ z >>> 30) * 0xBF58476D1CE4E5B9
  let z := (z ^^^ z >>> 27) * 0x94D049BB133111EB
  (z ^^^ z >>> 31, state)

/-- `ct_random_seed`. -/
def random_seed (seed : BitVec 64) : Random :=
  let (s0, seed) := random_splitmix64 seed
  let (s1, _) := random_splitmix64 seed
  if s0 = 0 ∧ s1 = 0 then ⟨0x9E3779B97F4A7C15, s1⟩ else ⟨s0, s1⟩

/-- `ct_random_u64`: a number and the new state. -/
def random_u64 (self : Random) : BitVec 64 × Random :=
  let s0 := self.s0
  let s1 := self.s1
  let result := random_rotl (s0 + s1) 17 + s0
  let s1 := s1 ^^^ s0
  (result, ⟨random_rotl s0 49 ^^^ s1 ^^^ s1 <<< 21, random_rotl s1 28⟩)

/-- `random_i64_from_u64`. -/
def random_i64_from_u64 (value : BitVec 64) : Except Stop Int :=
  if value ≤ 0x7FFFFFFFFFFFFFFF then checked value.toNat
  else do
    let complement ← checked (~~~value).toNat
    let negated ← checked (-complement)
    checked (negated - 1)

/-- The body of the loop of `ct_random_u64_range`: what it returns on a sample, unless it
goes on. -/
def accept (min range threshold sample : BitVec 64) : Option (BitVec 64) :=
  if sample ≥ threshold then some (min + sample % range) else none

/-- The loop of `ct_random_u64_range`. -/
def range_loop (min range threshold : BitVec 64) : Nat → Random → Except Stop (BitVec 64 × Random)
  | 0, _ => .error .fuel
  | fuel + 1, self =>
    let (sample, self) := random_u64 self
    match accept min range threshold sample with
    | some value => .ok (value, self)
    | none => range_loop min range threshold fuel self

/-- The `threshold` of a `range`. -/
def thresholdOf (range : BitVec 64) : BitVec 64 := (0 - range) % range

/-- `ct_random_u64_range`. -/
def random_u64_range (fuel : Nat) (self : Option Random) (min max : BitVec 64) :
    Except Stop (BitVec 64 × Option Random) :=
  match self with
  | none => .ok (0, none)
  | some self =>
    if max ≤ min then .ok (min, some self)
    else do
      let range := max - min
      let (value, self) ← range_loop min range (thresholdOf range) fuel self
      return (value, some self)

/-- `offset` of `ct_random_i64_range`. -/
def offset : BitVec 64 := 0x8000000000000000

/-- `ct_random_i64_range`. -/
def random_i64_range (fuel : Nat) (self : Option Random) (min max : Int) :
    Except Stop (Int × Option Random) :=
  match self with
  | none => .ok (0, none)
  | some self =>
    if max ≤ min then .ok (min, some self)
    else do
      let umin := BitVec.ofInt 64 min ^^^ offset
      let umax := BitVec.ofInt 64 max ^^^ offset
      let (value, self) ← random_u64_range fuel (some self) umin umax
      let value ← random_i64_from_u64 (value ^^^ offset)
      return (value, self)

end Coter.Rand
