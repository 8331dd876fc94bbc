import Coter.Lib.ByteOrder

/-!
# Byte swaps

`ct_binary`: swaps of the bytes and of the 16-bit lanes of a word, and what each
of them does to the bytes of the word:

* `split_bswap16`, `split_bswap32`, `split_bswap64`: all bytes reversed;
* `split_bswap16_lanes32`, `split_bswap16_lanes64`: the bytes of each lane exchanged;
* `split_reverse16_lanes32`, `split_reverse16_lanes64`: the lanes reversed.
-/

namespace Coter.Binary

open Lib.ByteOrder

/-- `ct_binary_bswap16`. -/
def bswap16 (val : BitVec 16) : BitVec 16 := (val >>> 8) ||| (val <<< 8)

/-- `ct_binary_bswap32`. -/
def bswap32 (val : BitVec 32) : BitVec 32 :=
  let val := ((val &&& 0x0000FFFF#32) <<< 16) ||| ((val &&& 0xFFFF0000#32) >>> 16)
  ((val &&& 0x00FF00FF#32) <<< 8) ||| ((val &&& 0xFF00FF00#32) >>> 8)

/-- `ct_binary_bswap64`. -/
def bswap64 (val : BitVec 64) : BitVec 64 :=
  let val := ((val &&& 0x00000000FFFFFFFF#64) <<< 32) ||| ((val &&& 0xFFFFFFFF00000000#64) >>> 32)
  let val := ((val &&& 0x0000FFFF0000FFFF#64) <<< 16) ||| ((val &&& 0xFFFF0000FFFF0000#64) >>> 16)
  ((val &&& 0x00FF00FF00FF00FF#64) <<< 8) ||| ((val &&& 0xFF00FF00FF00FF00#64) >>> 8)

/-- `ct_binary_bswap16_lanes32`. -/
def bswap16_lanes32 (val : BitVec 32) : BitVec 32 :=
  ((val &&& 0xFF00FF00#32) >>> 8) ||| ((val &&& 0x00FF00FF#32) <<< 8)

/-- `ct_binary_bswap16_lanes64`. -/
def bswap16_lanes64 (val : BitVec 64) : BitVec 64 :=
  ((val &&& 0xFF00FF00FF00FF00#64) >>> 8) ||| ((val &&& 0x00FF00FF00FF00FF#64) <<< 8)

/-- `ct_binary_reverse16_lanes32`. -/
def reverse16_lanes32 (val : BitVec 32) : BitVec 32 := (val >>> 16) ||| (val <<< 16)

/-- `ct_binary_reverse16_lanes64`. -/
def reverse16_lanes64 (val : BitVec 64) : BitVec 64 := bswap16_lanes64 (bswap64 val)

/-- Byte `i` of a word, from the least significant one. -/
def byte {w : Nat} (v : BitVec w) (i : Nat) : BitVec 8 := v.extractLsb' (8 * i) 8

theorem byte_bswap16 (v : BitVec 16) {i : Nat} (hi : i < 2) :
    byte (bswap16 v) i = byte v (1 - i) := by
  ext j hj
  simp only [byte, bswap16, BitVec.getElem_extractLsb', BitVec.getLsbD_or,
    BitVec.getLsbD_shiftLeft, BitVec.getLsbD_ushiftRight]
  interval_cases i <;> interval_cases j <;> simp

theorem byte_bswap32 (v : BitVec 32) {i : Nat} (hi : i < 4) :
    byte (bswap32 v) i = byte v (3 - i) := by
  ext j hj
  simp only [byte, bswap32, BitVec.getElem_extractLsb', BitVec.getLsbD_or, BitVec.getLsbD_and,
    BitVec.getLsbD_shiftLeft, BitVec.getLsbD_ushiftRight]
  interval_cases i <;> interval_cases j <;> simp

theorem byte_bswap64 (v : BitVec 64) {i : Nat} (hi : i < 8) :
    byte (bswap64 v) i = byte v (7 - i) := by
  ext j hj
  simp only [byte, bswap64, BitVec.getElem_extractLsb', BitVec.getLsbD_or, BitVec.getLsbD_and,
    BitVec.getLsbD_shiftLeft, BitVec.getLsbD_ushiftRight]
  interval_cases i <;> interval_cases j <;> simp

/-- The other byte of the lane of byte `i`. -/
def other (i : Nat) : Nat := if i % 2 = 0 then i + 1 else i - 1

theorem byte_bswap16_lanes32 (v : BitVec 32) {i : Nat} (hi : i < 4) :
    byte (bswap16_lanes32 v) i = byte v (other i) := by
  ext j hj
  simp only [byte, bswap16_lanes32, other, BitVec.getElem_extractLsb', BitVec.getLsbD_or,
    BitVec.getLsbD_and, BitVec.getLsbD_shiftLeft, BitVec.getLsbD_ushiftRight]
  interval_cases i <;> interval_cases j <;> simp

theorem byte_bswap16_lanes64 (v : BitVec 64) {i : Nat} (hi : i < 8) :
    byte (bswap16_lanes64 v) i = byte v (other i) := by
  ext j hj
  simp only [byte, bswap16_lanes64, other, BitVec.getElem_extractLsb', BitVec.getLsbD_or,
    BitVec.getLsbD_and, BitVec.getLsbD_shiftLeft, BitVec.getLsbD_ushiftRight]
  interval_cases i <;> interval_cases j <;> simp

theorem byte_reverse16_lanes32 (v : BitVec 32) {i : Nat} (hi : i < 4) :
    byte (reverse16_lanes32 v) i = byte v (other (3 - i)) := by
  ext j hj
  simp only [byte, reverse16_lanes32, other, BitVec.getElem_extractLsb', BitVec.getLsbD_or,
    BitVec.getLsbD_shiftLeft, BitVec.getLsbD_ushiftRight]
  interval_cases i <;> interval_cases j <;> simp

/-- Rearranging the bytes of a word rearranges the list of its bytes. -/
theorem split_of_byte {w : Nat} {v v' : BitVec w} {n : Nat} {p : Nat → Nat}
    (h : ∀ i, i < n → byte v' i = byte v (p i)) :
    split n v'.toNat = (List.range n).map fun i => UInt8.ofBitVec (byte v (p i)) := by
  rw [split_toNat]
  apply List.map_congr_left
  intro i hi
  exact congrArg UInt8.ofBitVec (h i (List.mem_range.1 hi))

theorem split_bswap16 (v : BitVec 16) :
    split 2 (bswap16 v).toNat = (split 2 v.toNat).reverse := by
  rw [split_of_byte fun _ hi => byte_bswap16 v hi, split_toNat]
  rfl

theorem split_bswap32 (v : BitVec 32) :
    split 4 (bswap32 v).toNat = (split 4 v.toNat).reverse := by
  rw [split_of_byte fun _ hi => byte_bswap32 v hi, split_toNat]
  rfl

theorem split_bswap64 (v : BitVec 64) :
    split 8 (bswap64 v).toNat = (split 8 v.toNat).reverse := by
  rw [split_of_byte fun _ hi => byte_bswap64 v hi, split_toNat]
  rfl

theorem split_bswap16_lanes32 (v : BitVec 32) :
    split 4 (bswap16_lanes32 v).toNat = swapPairs (split 4 v.toNat) := by
  rw [split_of_byte fun _ hi => byte_bswap16_lanes32 v hi, split_toNat]
  rfl

theorem split_bswap16_lanes64 (v : BitVec 64) :
    split 8 (bswap16_lanes64 v).toNat = swapPairs (split 8 v.toNat) := by
  rw [split_of_byte fun _ hi => byte_bswap16_lanes64 v hi, split_toNat]
  rfl

theorem split_reverse16_lanes32 (v : BitVec 32) :
    split 4 (reverse16_lanes32 v).toNat = swapPairs (split 4 v.toNat).reverse := by
  rw [split_of_byte fun _ hi => byte_reverse16_lanes32 v hi, split_toNat]
  rfl

theorem split_reverse16_lanes64 (v : BitVec 64) :
    split 8 (reverse16_lanes64 v).toNat = swapPairs (split 8 v.toNat).reverse := by
  rw [reverse16_lanes64, split_bswap16_lanes64, split_bswap64]

/-- A word is determined by its bytes. -/
theorem split_inj {w n : Nat} {v v' : BitVec w} (hw : 2 ^ w ≤ 256 ^ n)
    (h : split n v.toNat = split n v'.toNat) : v = v' := by
  have same := congrArg combine h
  have hv := v.isLt
  have hv' := v'.isLt
  rw [combine_split, combine_split, Nat.mod_eq_of_lt (by omega), Nat.mod_eq_of_lt (by omega)] at same
  exact BitVec.eq_of_toNat_eq same

end Coter.Binary
