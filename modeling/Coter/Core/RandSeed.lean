import Coter.Core.Machine
import Coter.Core.RandOrbit
import Coter.Lib.ByteOrder
import Coter.Lib.Mixing

/-!
# Seeds and bytes

* `seeds_apart`: generators of different seeds are never in the same state;
* `random_bytes_stream`: `ct_random_bytes` copies the stream of the numbers, and calls may be
  split where a number ends.
-/

namespace Coter.Rand

open Function Lib.Mixing

/-- `random_mix64` -/
def random_mix64 (value : BitVec 64) : BitVec 64 :=
  let value := value ^^^ value >>> 30
  let value := value * 0xBF58476D1CE4E5B9
  let value := value ^^^ value >>> 27
  let value := value * 0x94D049BB133111EB
  value ^^^ value >>> 31

/-! ## Seeds -/

theorem random_mix64_injective : Injective random_mix64 := by
  have first : Injective fun x : BitVec 64 => x * 0xBF58476D1CE4E5B9 :=
    mul_injective (n := 0x96de1b173f119089) (by decide)
  have second : Injective fun x : BitVec 64 => x * 0x94D049BB133111EB :=
    mul_injective (n := 0x319642b2d24d8ec3) (by decide)
  exact (xorshift_injective (by decide)).comp (second.comp
    ((xorshift_injective (by decide)).comp (first.comp (xorshift_injective (by decide)))))

/-- The same mix, behind the step of the seed. -/
theorem random_splitmix64_eq (state : BitVec 64) :
    random_splitmix64 state =
      (random_mix64 (state + 0x9E3779B97F4A7C15), state + 0x9E3779B97F4A7C15) := rfl

theorem random_splitmix64_injective : Injective fun state => (random_splitmix64 state).1 := by
  intro x y same
  simp only [random_splitmix64_eq] at same
  exact (BitVec.add_left_inj _).1 (random_mix64_injective same)

/-- Both words are never zero, so that the seed is what they are made of. -/
theorem random_seed_eq (seed : BitVec 64) : random_seed seed =
    ⟨(random_splitmix64 seed).1, (random_splitmix64 (seed + 0x9E3779B97F4A7C15)).1⟩ := by
  have apart : ¬((random_splitmix64 seed).1 = 0 ∧
      (random_splitmix64 (seed + 0x9E3779B97F4A7C15)).1 = 0) := by
    rintro ⟨first, second⟩
    have same : seed = seed + 0x9E3779B97F4A7C15 :=
      random_splitmix64_injective (first.trans second.symm)
    bv_omega
  exact if_neg apart

theorem random_seed_injective : Injective random_seed := by
  intro x y same
  rw [random_seed_eq, random_seed_eq] at same
  exact random_splitmix64_injective (congrArg Random.s0 same)

/-- **Seeds stay apart.** No seed needs the word that would replace two zeros: the words of the
state are the first two numbers of SplitMix64. Its mix, which also condenses the entropy of
`ct_random_init`, is a bijection; and two generators with different seeds are never in the same
state after the same count of numbers. -/
theorem seeds_apart :
    (∀ seed, random_seed seed =
      ⟨(random_splitmix64 seed).1, (random_splitmix64 (random_splitmix64 seed).2).1⟩) ∧
    Bijective random_mix64 ∧
    ∀ (seed seed' : BitVec 64) (n : Nat),
      advance^[n] (random_seed seed) = advance^[n] (random_seed seed') → seed = seed' :=
  ⟨random_seed_eq, Finite.injective_iff_bijective.1 random_mix64_injective,
    fun _ _ n same => random_seed_injective (advance_injective.iterate n same)⟩

/-! ## Bytes -/

open Lib.Blocks Lib.ByteOrder

/-- The loop of `ct_random_bytes` over the whole numbers: the generator, the bytes written, and
the offset of what is left. -/
def bytes_loop (host : Endian) (size : Nat) :
    Nat → Random → List UInt8 → Nat → Except Fault (Random × List UInt8 × Nat)
  | 0, _, _, _ => .error .fuel
  | fuel + 1, self, out, i =>
    if usize (i + 8) ≤ size then do
      let (value, self) := random_u64 self
      let out ← store out i (encode host 8 value.toNat)
      bytes_loop host size fuel self out (usize (i + 8))
    else .ok (self, out, i)

/-- `ct_random_bytes` -/
def random_bytes (host : Endian) (fuel : Nat) (self : Option Random) (buffer : Option (List UInt8))
    (size : Nat) : Except Fault (Option Random × Option (List UInt8)) :=
  match self, buffer with
  | some self, some out => do
    let (self, out, i) ← bytes_loop host size fuel self out 0
    if i < size then
      let (value, self) := random_u64 self
      let out ← store out i ((encode host 8 value.toNat).take (usizeSub size i))
      return (some self, some out)
    else return (some self, some out)
  | self, buffer => .ok (self, buffer)

/-- The bytes of the next `n` numbers. -/
def stream (host : Endian) : Nat → Random → List UInt8
  | 0, _ => []
  | n + 1, r => encode host 8 (random_u64 r).1.toNat ++ stream host n (advance r)

variable {out : List UInt8}

@[simp] theorem stream_length (host : Endian) (n : Nat) (r : Random) :
    (stream host n r).length = 8 * n := by
  induction n generalizing r with
  | zero => rfl
  | succ n ih =>
    rw [stream, List.length_append, encode_length, ih]
    omega

theorem stream_add (host : Endian) (m n : Nat) (r : Random) :
    stream host (m + n) r = stream host m r ++ stream host n (advance^[m] r) := by
  induction m generalizing r with
  | zero => rw [Nat.zero_add]; rfl
  | succ m ih => rw [Nat.succ_add, stream, stream, ih, List.append_assoc, iterate_succ_apply]

/-- `n` turns of the loop write the bytes of `n` numbers. -/
theorem bytes_loop_eq (host : Endian) (r : Random) {size fuel : Nat} (n i : Nat)
    (hsize : size < 2 ^ 63) (hout : size ≤ out.length) (room : i + 8 * n ≤ size) (last : size < i + 8 * n + 8) (enough : n < fuel) :
    bytes_loop host size fuel r out i =
      .ok (advance^[n] r, write out i (stream host n r), i + 8 * n) := by
  induction n generalizing r out i fuel with
  | zero =>
    obtain ⟨fuel, rfl⟩ := Nat.exists_eq_succ_of_ne_zero (Nat.ne_of_gt enough)
    rw [bytes_loop, usize_of_lt (by omega), if_neg (by omega), stream, write_nil]
    rfl
  | succ n ih =>
    obtain ⟨fuel, rfl⟩ := Nat.exists_eq_succ_of_ne_zero (show fuel ≠ 0 by omega)
    have inside : i + (encode host 8 (random_u64 r).1.toNat).length ≤ out.length := by
      rw [encode_length]
      omega
    rw [bytes_loop, usize_of_lt (by omega), if_pos (by omega)]
    dsimp only
    have kept : size ≤ (write out i (encode host 8 (random_u64 r).1.toNat)).length := by
      rwa [write_length inside]
    rw [store_ok inside, ok_bind, ih (random_u64 r).2 (i + 8) kept (by omega) (by omega) (by omega)]
    have both := write_write (m := out) (o := i) (a := encode host 8 (random_u64 r).1.toNat)
      (b := stream host n (advance r)) (by rw [encode_length, stream_length]; omega)
    rw [encode_length] at both
    refine congrArg Except.ok (Prod.ext rfl (Prod.ext both ?_))
    dsimp only
    omega

/-- How many numbers a call draws. -/
def numbers (size : Nat) : Nat := (size + 7) / 8

/-- What a call leaves: the next numbers have been drawn, and their bytes are in the buffer. -/
theorem random_bytes_eq (host : Endian) (r : Random) {size fuel : Nat} (hsize : size < 2 ^ 63)
    (hout : size ≤ out.length) (enough : size / 8 < fuel) :
    random_bytes host fuel (some r) (some out) size = .ok (some (advance^[numbers size] r),
      some ((stream host (numbers size) r).take size ++ out.drop size)) := by
  have loop := bytes_loop_eq host r (size / 8) 0 hsize hout (by omega) (by omega) enough
  have whole : (stream host (size / 8) r).length = 8 * (size / 8) := stream_length ..
  unfold random_bytes
  dsimp only
  rw [loop, Nat.zero_add, ok_bind, write_start, whole]
  dsimp only
  by_cases more : 8 * (size / 8) < size
  · have count : numbers size = size / 8 + 1 := by unfold numbers; omega
    have left : usizeSub size (8 * (size / 8)) = size - 8 * (size / 8) :=
      usizeSub_of_le (by omega) (by omega)
    have number := iterate_succ_apply' advance (size / 8) r
    generalize hlast : advance^[size / 8] r = last at number
    have bytes : ((encode host 8 (random_u64 last).1.toNat).take (size - 8 * (size / 8))).length =
        size - 8 * (size / 8) := by
      rw [List.length_take, encode_length]
      omega
    have drawn : (stream host (size / 8 + 1) r).take size = stream host (size / 8) r ++
        (encode host 8 (random_u64 last).1.toNat).take (size - 8 * (size / 8)) := by
      rw [stream_add, hlast, List.take_append, whole, List.take_of_length_le (by omega), stream,
        stream, List.append_nil]
    have behind := write_behind (stream host (size / 8) r) (out.drop (8 * (size / 8)))
      ((encode host 8 (random_u64 last).1.toNat).take (size - 8 * (size / 8)))
    rw [whole, bytes, List.drop_drop] at behind
    have fits : 8 * (size / 8) + ((encode host 8 (random_u64 last).1.toNat).take
        (size - 8 * (size / 8))).length ≤
        (stream host (size / 8) r ++ out.drop (8 * (size / 8))).length := by
      rw [bytes, List.length_append, List.length_drop, whole]
      omega
    rw [if_pos more, left, store_ok fits, ok_bind, behind, count, drawn, number]
    congr 5
    omega
  · have count : numbers size = size / 8 := by unfold numbers; omega
    rw [if_neg more, count, List.take_of_length_le (by omega)]
    congr 5
    omega

/-- Numbers in front are taken by a call of their own. -/
theorem numbers_split {size k : Nat} (h : 8 * k ≤ size) :
    numbers size = k + numbers (size - 8 * k) := by
  unfold numbers
  omega

/-- **A stream of bytes.** In every buffer and for every size the call ends, has drawn one number
for every eight bytes begun, and has copied their bytes in the order of the host and nothing else.
So a call may be split wherever a number ends: the two calls leave the same bytes and the same
generator. -/
theorem random_bytes_stream (host : Endian) (r : Random) (out : List UInt8) (fuel size : Nat)
    (short : out.length < 2 ^ 63) (room : size ≤ out.length) (enough : out.length / 8 < fuel) :
    random_bytes host fuel (some r) (some out) size = .ok (some (advance^[numbers size] r),
      some ((stream host (numbers size) r).take size ++ out.drop size)) ∧
    ∀ k r₁ out₁ r₂ rest, 8 * k ≤ size →
      random_bytes host fuel (some r) (some out) (8 * k) = .ok (some r₁, some out₁) →
      random_bytes host fuel (some r₁) (some (out₁.drop (8 * k))) (size - 8 * k) =
        .ok (some r₂, some rest) →
      random_bytes host fuel (some r) (some out) size =
        .ok (some r₂, some (out₁.take (8 * k) ++ rest)) := by
  have turns' : size / 8 < fuel := by omega
  have whole := random_bytes_eq host r (by omega : size < 2 ^ 63) room turns'
  refine ⟨whole, fun k r₁ out₁ r₂ rest h first second => ?_⟩
  have turns : numbers (8 * k) = k := by unfold numbers; omega
  have front : (stream host k r).length = 8 * k := stream_length ..
  rw [random_bytes_eq host r (by omega) (by omega) (by omega), turns,
    List.take_of_length_le (Nat.le_of_eq front)] at first
  obtain ⟨rfl, rfl⟩ : advance^[k] r = r₁ ∧ stream host k r ++ out.drop (8 * k) = out₁ := by
    simpa using first
  have left : size - 8 * k ≤ (out.drop (8 * k)).length := by
    rw [List.length_drop]
    omega
  rw [List.drop_left' front, random_bytes_eq host _ (by omega) left (by omega)] at second
  obtain ⟨hr, hrest⟩ := Prod.mk.inj (Except.ok.inj second)
  rw [whole, numbers_split h, stream_add, List.take_left' front, ← Option.some.inj hrest, ← hr,
    List.take_append, front, List.take_of_length_le (by omega), List.append_assoc, List.drop_drop,
    Nat.add_sub_cancel' h, Nat.add_comm k, iterate_add_apply]

/-- One number and a byte of the next. -/
theorem random_bytes_stream_nine :
    random_bytes .big 2 (some (random_seed 0)) (some (List.replicate 10 0)) 9 =
      .ok (some (advance^[2] (random_seed 0)),
        some ((stream .big 2 (random_seed 0)).take 9 ++ [0])) :=
  (random_bytes_stream .big (random_seed 0) (List.replicate 10 0) 2 9 (by decide) (by decide)
    (by decide)).1

end Coter.Rand
