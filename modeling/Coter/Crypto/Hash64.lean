import Coter.Crypto.Hash
import Coter.Lib.Murmur64

/-!
# MurmurHash2 of 64 bits

`ct_hashalgo_murmurhash2_64`, which reads its words in the byte order of the host.

* `murmur64_loop_eq`, `murmur64_switch_eq`: the words and the bytes behind them;
* `murmurhash2_64_reference`: the value is that of MurmurHash64A, and nothing gets lost.
-/

namespace Coter.Hash

open Function Lib.Blocks Lib.ByteOrder Lib.BlockHash Lib.Mixing

/-- The constant `m`. -/
def m64 : BitVec 64 := 0xc6a4a7935bd1e995

/-- The loop of `ct_hashalgo_murmurhash2_64` over the words up to `end`, and the data behind
it. -/
def murmur64_loop (host : Endian) : Nat → BitVec 64 → List UInt8 →
    Except Fault (BitVec 64 × List UInt8)
  | 0, h, data => .ok (h, data)
  | words + 1, h, data => do
    let bytes ← load data 0 8
    let k := BitVec.ofNat 64 (decode host bytes)
    let k := k * m64
    let k := k ^^^ k >>> 47
    let k := k * m64
    let h := h ^^^ k
    let h := h * m64
    murmur64_loop host words h (data.drop 8)

/-- `(uint64_t)data2[i]` -/
def byte64 (data2 : List UInt8) (i : Nat) : BitVec 64 := (data2.getD i 0).toBitVec.setWidth 64

/-- The cases 7 to 1 of `ct_hashalgo_murmurhash2_64`, each of which falls through to the next:
case `i + 1` shifts byte `i` by `8 * i`. -/
def murmur64_switch (h : BitVec 64) (data2 : List UInt8) : Nat → BitVec 64
  | 0 => h
  | 1 => (h ^^^ byte64 data2 0) * m64
  | i + 2 => murmur64_switch (h ^^^ byte64 data2 (i + 1) <<< (8 * (i + 1))) data2 (i + 1)

/-- `ct_hashalgo_murmurhash2_64` -/
def murmurhash2_64 (host : Endian) (data : Option (List UInt8)) (seed : BitVec 64) :
    Except Fault (BitVec 64) :=
  match data with
  | none => .ok 0
  | some data => do
    let size := data.length
    let h := seed ^^^ BitVec.ofNat 64 size * m64
    let (h, data2) ← murmur64_loop host (size / 8) h data
    let h := murmur64_switch h data2 (size &&& 7)
    let h := h ^^^ h >>> 47
    let h := h * m64
    return h ^^^ h >>> 47

variable {host : Endian} {h : BitVec 64} {data : List UInt8} {k : Nat}

/-! ## Words -/

/-- The message whose words a host reads least significant byte first: on a host of the other
order the bytes of each word are reversed. -/
def turn (host : Endian) (data : List UInt8) : List UInt8 :=
  if 8 ≤ data.length then host.arrange (data.take 8) ++ turn host (data.drop 8) else data
termination_by data.length
decreasing_by
  rw [List.length_drop]
  omega

theorem turn_little (data : List UInt8) : turn .little data = data := by
  fun_induction turn .little data with
  | case1 data more ih => rw [ih, Endian.arrange, List.take_append_drop]
  | case2 data less => rfl

theorem turn_length (host : Endian) (data : List UInt8) :
    (turn host data).length = data.length := by
  fun_induction turn host data with
  | case1 data more ih =>
    rw [List.length_append, arrange_length, ih, List.length_take, List.length_drop]
    omega
  | case2 data less => rfl

/-- Words in front are turned on their own. -/
theorem turn_append {a : List UInt8} (whole : a.length % 8 = 0) (m : List UInt8) :
    turn host (a ++ m) = turn host a ++ turn host m := by
  fun_induction turn host a with
  | case1 a more ih =>
    have rest : (a.drop 8).length % 8 = 0 := by rw [List.length_drop]; omega
    rw [turn, if_pos (by rw [List.length_append]; omega), List.take_append_of_le_length more,
      List.drop_append_of_le_length more, ih rest, List.append_assoc]
  | case2 a less =>
    obtain rfl : a = [] := List.eq_nil_of_length_eq_zero (by omega)
    rfl

theorem turn_block {b : List UInt8} (hb : b.length = 8) : turn host b = host.arrange b := by
  rw [turn, if_pos (Nat.le_of_eq hb.symm), List.take_of_length_le (Nat.le_of_eq hb),
    List.drop_of_length_le (Nat.le_of_eq hb), turn, if_neg (by decide), List.append_nil]

theorem turn_short {b : List UInt8} (hb : b.length < 8) : turn host b = b := by
  rw [turn, if_neg (by omega)]

theorem murmur64_loop_eq (host : Endian) (h : BitVec 64) (data : List UInt8) :
    murmur64_loop host (data.length / 8) h data =
      .ok (absorb Lib.Murmur64.mix 8 h (turn host data)) := by
  fun_induction turn host data generalizing h with
  | case1 data more ih =>
    obtain ⟨words, hwords⟩ : ∃ n, data.length / 8 = n + 1 := ⟨data.length / 8 - 1, by omega⟩
    have rest : (data.drop 8).length / 8 = words := by rw [List.length_drop]; omega
    have block : (host.arrange (data.take 8)).length = 8 := by
      rw [arrange_length, List.length_take_of_le more]
    have word : BitVec.ofNat 64 (decode host (data.take 8)) =
        Lib.Murmur64.word (host.arrange (data.take 8)) := rfl
    rw [hwords, murmur64_loop, load_ok (by omega), absorb_block _ _ (by decide) block, ← ih, rest]
    dsimp only [ok_bind]
    rw [Lib.Blocks.read, List.drop_zero, word]
    rfl
  | case2 data less =>
    rw [Nat.div_eq_of_lt (by omega), absorb_short _ (by omega)]
    rfl

/-! ## The bytes behind them -/

theorem byte64_eq (hk : k < data.length) :
    byte64 data k = BitVec.ofNat 64 (data.get ⟨k, hk⟩).toNat := by
  unfold byte64
  rw [List.getD_eq_getElem _ _ hk]
  apply BitVec.eq_of_toNat_eq
  have small := (data.get ⟨k, hk⟩).toNat_lt
  rw [BitVec.toNat_setWidth, BitVec.toNat_ofNat]
  rfl

/-- One byte more. -/
theorem take_byte (hk : k < data.length) :
    BitVec.ofNat 64 (combine (data.take k)) ^^^ byte64 data k <<< (8 * k) =
      BitVec.ofNat 64 (combine (data.take (k + 1))) := by
  have length : (data.take k).length = k := List.length_take_of_le (Nat.le_of_lt hk)
  have small : combine (data.take k) < 2 ^ (8 * k) := by
    have bound := combine_lt (data.take k)
    rwa [length, show 256 = 2 ^ 8 from rfl, ← Nat.pow_mul] at bound
  rw [byte64_eq hk, xor_shiftLeft small, List.take_succ_eq_append_getElem hk, combine_append,
    length, show 256 = 2 ^ 8 from rfl, ← Nat.pow_mul]
  rfl

theorem murmur64_switch_succ (h : BitVec 64) (hk : k < data.length) :
    murmur64_switch h data (k + 1) =
      (h ^^^ BitVec.ofNat 64 (combine (data.take (k + 1)))) * m64 := by
  induction k generalizing h with
  | zero =>
    rw [murmur64_switch, ← take_byte hk]
    simp [combine]
  | succ k ih =>
    rw [murmur64_switch, ih _ (Nat.lt_of_succ_lt hk), ← take_byte hk, BitVec.xor_assoc,
      BitVec.xor_comm (byte64 _ _ <<< _)]

theorem murmur64_switch_eq (h : BitVec 64) (data : List UInt8) :
    murmur64_switch h data data.length = Lib.Murmur64.tail h data := by
  unfold Lib.Murmur64.tail
  cases hdata : data with
  | nil => rfl
  | cons b rest =>
    have whole : (b :: rest).take (rest.length + 1) = b :: rest :=
      List.take_of_length_le (Nat.le_refl _)
    rw [if_neg (List.cons_ne_nil b rest), List.length_cons,
      murmur64_switch_succ h (Nat.lt_succ_self _), whole]
    rfl

/-! ## The function -/

theorem murmurhash2_64_eq (host : Endian) (data : List UInt8) (seed : BitVec 64) :
    murmurhash2_64 host (some data) seed = .ok (Lib.Murmur64.murmur64 seed (turn host data)) := by
  have mask : data.length &&& 7 = data.length % 8 := Nat.and_two_pow_sub_one_eq_mod data.length 3
  have rest := absorb_rest_length (f := Lib.Murmur64.mix)
    (seed ^^^ BitVec.ofNat 64 data.length * m64) (turn host data) (by decide : 0 < 8)
  rw [turn_length] at rest
  unfold murmurhash2_64 Lib.Murmur64.murmur64
  dsimp only
  rw [murmur64_loop_eq, ok_bind, mask, turn_length, ← rest, murmur64_switch_eq]
  rfl

/-- **MurmurHash64A, and nothing gets lost.** On every host, for every message and every seed the
function returns the value of MurmurHash64A, on the message itself where the host is little-endian
and else on the message with the bytes of each whole word reversed. So two seeds never agree on a
message, nor do two messages of one length that differ in a single word, or behind the last. -/
theorem murmurhash2_64_reference (host : Endian) :
    (∀ data seed, murmurhash2_64 host (some data) seed =
      .ok (Lib.Murmur64.murmur64 seed (turn host data))) ∧
    (∀ data, turn .little data = data) ∧
    (∀ data, Injective (murmurhash2_64 host (some data))) ∧
    (∀ (a b b' c : List UInt8) (seed : BitVec 64), a.length % 8 = 0 → b.length = b'.length →
      (b.length = 8 ∨ b.length < 8 ∧ c = []) →
      murmurhash2_64 host (some (a ++ (b ++ c))) seed =
        murmurhash2_64 host (some (a ++ (b' ++ c))) seed → b = b') := by
  refine ⟨murmurhash2_64_eq host, turn_little, fun data seed seed' same => ?_, ?_⟩
  · rw [murmurhash2_64_eq, murmurhash2_64_eq] at same
    exact Lib.Murmur64.murmur64_seed _ (Except.ok.inj same)
  · intro a b b' c seed whole lengths size same
    rw [murmurhash2_64_eq, murmurhash2_64_eq] at same
    have values := Except.ok.inj same
    have whole' : (turn host a).length % 8 = 0 := by rwa [turn_length]
    rw [turn_append whole, turn_append whole] at values
    rcases size with word | ⟨short, rfl⟩
    · have word' := lengths.symm.trans word
      rw [turn_append (by rw [word]), turn_append (by rw [word']), turn_block word,
        turn_block word'] at values
      have arranged := Lib.Murmur64.murmur64_word seed whole' (by rw [arrange_length, word])
        (by rw [arrange_length, word']) values
      rw [← arrange_arrange host b, arranged, arrange_arrange]
    · rw [List.append_nil, List.append_nil, turn_short short,
        turn_short (lengths.symm.trans_lt short)] at values
      exact Lib.Murmur64.murmur64_rest seed whole' short lengths.symm values

end Coter.Hash
