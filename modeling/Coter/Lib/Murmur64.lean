import Coter.Lib.BlockHash
import Coter.Lib.Mixing

/-!
# MurmurHash64A

The 64-bit function on whole bytes, with words of eight bytes least significant byte first.

* `murmur64_seed`: the seed is never lost;
* `murmur64_word`, `murmur64_rest`: neither is a single word, or what follows the last word.
-/

namespace Lib.Murmur64

open Function Lib.ByteOrder Lib.BlockHash Lib.Mixing

def factor : BitVec 64 := 0xc6a4a7935bd1e995

def word (block : List UInt8) : BitVec 64 := BitVec.ofNat 64 (decode .little block)

def scramble (k : BitVec 64) : BitVec 64 :=
  let k := k * factor
  let k := k ^^^ k >>> 47
  k * factor

/-- One word of the message. -/
def mix (h : BitVec 64) (block : List UInt8) : BitVec 64 := (h ^^^ scramble (word block)) * factor

/-- What is left over after the last whole word. -/
def tail (h : BitVec 64) (rest : List UInt8) : BitVec 64 :=
  if rest = [] then h else (h ^^^ word rest) * factor

def finish (h : BitVec 64) : BitVec 64 :=
  let h := (h ^^^ h >>> 47) * factor
  h ^^^ h >>> 47

/-- MurmurHash64A. -/
def murmur64 (seed : BitVec 64) (m : List UInt8) : BitVec 64 :=
  let (h, rest) := absorb mix 8 (seed ^^^ BitVec.ofNat 64 m.length * factor) m
  finish (tail h rest)

/-! ## Nothing is lost -/

variable {h h' : BitVec 64} {a b b' c : List UInt8}

theorem factor_injective : Injective fun x : BitVec 64 => x * factor :=
  mul_injective (n := 0x5f7a0ea7e59b19bd) (by decide)

theorem scramble_injective : Injective scramble :=
  factor_injective.comp ((xorshift_injective (by decide)).comp factor_injective)

theorem finish_injective : Injective finish :=
  (xorshift_injective (by decide)).comp (factor_injective.comp (xorshift_injective (by decide)))

theorem word_injective (few : b.length ≤ 8) (same : b.length = b'.length)
    (h : word b = word b') : b = b' := by
  have bound {b : List UInt8} (few : b.length ≤ 8) : combine b < 2 ^ 64 :=
    (combine_lt b).trans_le (Nat.pow_le_pow_right (by decide : 0 < 256) few)
  have values := congrArg BitVec.toNat h
  simp only [word, BitVec.toNat_ofNat, decode, Endian.arrange] at values
  rw [Nat.mod_eq_of_lt (bound few), Nat.mod_eq_of_lt (bound (same ▸ few))] at values
  rw [← split_combine b, ← split_combine b', same, values]

theorem mix_injective (block : List UInt8) : Injective fun h => mix h block :=
  factor_injective.comp (xor_injective _)

theorem tail_injective (rest : List UInt8) : Injective fun h => tail h rest := by
  intro h h' same
  unfold tail at same
  dsimp only at same
  split at same
  · exact same
  · exact xor_injective _ (factor_injective same)

/-- From another state the words lead to another state. -/
theorem absorb_injective (m : List UInt8) (same : (absorb mix 8 h m).1 = (absorb mix 8 h' m).1) :
    h = h' := by
  fun_induction absorb mix 8 h m generalizing h' with
  | case1 h m more ih =>
    have first : absorb mix 8 h' m = absorb mix 8 (mix h' (m.take 8)) (m.drop 8) := by
      rw [absorb, dif_pos more]
    rw [first] at same
    exact mix_injective _ (ih same)
  | case2 h m less =>
    rw [absorb, dif_neg less] at same
    exact same

theorem absorb_rests (h h' : BitVec 64) (m : List UInt8) :
    (absorb mix 8 h m).2 = (absorb mix 8 h' m).2 := by
  rw [absorb_rest _ _ (by decide), absorb_rest _ _ (by decide)]

/-- What follows the words does not bring two states together. -/
theorem finish_absorb_injective (m : List UInt8)
    (same : finish (tail (absorb mix 8 h m).1 (absorb mix 8 h m).2) =
      finish (tail (absorb mix 8 h' m).1 (absorb mix 8 h' m).2)) : h = h' := by
  have inner := finish_injective same
  rw [absorb_rests h h'] at inner
  exact absorb_injective m (tail_injective _ inner)

/-- The seed is never lost. -/
theorem murmur64_seed (m : List UInt8) : Injective fun seed => murmur64 seed m :=
  fun _ _ same => xor_injective _ (finish_absorb_injective m same)

/-- Behind whole words the state goes on with the rest. -/
theorem absorb_words (h : BitVec 64) (whole : a.length % 8 = 0) (m : List UInt8) :
    absorb mix 8 h (a ++ m) = absorb mix 8 (absorb mix 8 h a).1 m := by
  have length := absorb_rest_length (f := mix) h a (by decide : 0 < 8)
  have none : (absorb mix 8 h a).2 = [] := List.eq_nil_of_length_eq_zero (length.trans whole)
  rw [absorb_append _ _ _ (by decide), none, List.nil_append]

/-- Two messages that differ in one word. -/
theorem murmur64_word (seed : BitVec 64) (whole : a.length % 8 = 0) (hb : b.length = 8)
    (hb' : b'.length = 8) (same : murmur64 seed (a ++ (b ++ c)) = murmur64 seed (a ++ (b' ++ c))) :
    b = b' := by
  have lengths : (a ++ (b ++ c)).length = (a ++ (b' ++ c)).length := by
    simp only [List.length_append, hb, hb']
  unfold murmur64 at same
  rw [lengths] at same
  dsimp only at same
  rw [absorb_words _ whole, absorb_words _ whole, absorb_block _ _ (by decide) hb,
    absorb_block _ _ (by decide) hb'] at same
  have words := (BitVec.xor_right_inj _).1 (factor_injective (finish_absorb_injective c same))
  exact word_injective (Nat.le_of_eq hb) (hb.trans hb'.symm) (scramble_injective words)

/-- Two messages that differ behind their last word. -/
theorem murmur64_rest (seed : BitVec 64) (whole : a.length % 8 = 0) (hb : b.length < 8)
    (hb' : b'.length = b.length) (same : murmur64 seed (a ++ b) = murmur64 seed (a ++ b')) :
    b = b' := by
  have lengths : (a ++ b).length = (a ++ b').length := by
    simp only [List.length_append, hb']
  unfold murmur64 at same
  rw [lengths] at same
  dsimp only at same
  rw [absorb_words _ whole, absorb_words _ whole, absorb_short _ hb,
    absorb_short _ (hb'.trans_lt hb)] at same
  have tails := finish_injective same
  unfold tail at tails
  by_cases none : b = []
  · subst none
    exact (List.eq_nil_of_length_eq_zero hb').symm
  · have some : b' ≠ [] := by
      rintro rfl
      exact none (List.eq_nil_of_length_eq_zero hb'.symm)
    rw [if_neg none, if_neg some] at tails
    have words := (BitVec.xor_right_inj _).1 (factor_injective tails)
    exact word_injective (Nat.le_of_lt hb) hb'.symm words

end Lib.Murmur64
