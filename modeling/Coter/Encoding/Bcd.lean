import Coter.Lib.Lanes

/-!
# Binary-coded decimal

`coter/encoding/bcd.h`, for words of 32 and 64 bits.
-/

namespace Coter.Bcd

/-- `ct_bcd_is_valid_u8`. -/
def is_valid_u8 (bcd : BitVec 8) : Bool := bcd &&& 0x0F ≤ 9 && bcd >>> 4 ≤ 9

/-- `ct_bcd_is_valid_u16`. -/
def is_valid_u16 (bcd : BitVec 16) : Bool :=
  is_valid_u8 (bcd.setWidth 8) && is_valid_u8 ((bcd >>> 8).setWidth 8)

/-- `ct_bcd_is_valid_u32`. -/
def is_valid_u32 (bcd : BitVec 32) : Bool :=
  is_valid_u16 (bcd.setWidth 16) && is_valid_u16 ((bcd >>> 16).setWidth 16)

/-- `ct_bcd_is_valid_u64`. -/
def is_valid_u64 (bcd : BitVec 64) : Bool :=
  is_valid_u32 (bcd.setWidth 32) && is_valid_u32 ((bcd >>> 32).setWidth 32)

/-- `ct_bcd_encode_u32`. -/
def encode_u32 (bin : BitVec 32) : BitVec 32 :=
  let bin := bin % 100000000
  let bin := bin + bin / 10000 * 55536
  let lo16 := bin >>> 2 &&& 0x00003FFF
  let hi16 := bin >>> 18 &&& 0x00003FFF
  let hundreds := (lo16 * 1311) >>> 15 ||| ((hi16 * 1311) <<< 1 &&& 0xFFFF0000)
  let bin := bin + hundreds * 156
  let lo8 := bin >>> 1 &&& 0x007F007F
  let hi8 := bin >>> 9 &&& 0x007F007F
  let tens := ((lo8 * 52) >>> 8 &&& 0x00FF00FF) ||| (hi8 * 52 &&& 0xFF00FF00)
  bin + tens * 6

/-- `ct_bcd_encode_u64`. -/
def encode_u64 (bin : BitVec 64) : BitVec 64 :=
  let bin := bin % 10000000000000000
  let bin := bin + bin / 100000000 * 4194967296
  let hi32_div := ((bin >>> 32).setWidth 32 / 10000 : BitVec 32).setWidth 64
  let lo32_div := (bin.setWidth 32 / 10000 : BitVec 32).setWidth 64
  let ten_thousands := hi32_div <<< 32 ||| lo32_div
  let bin := bin + ten_thousands * 55536
  let lo16 := bin >>> 2 &&& 0x00003FFF00003FFF
  let hi16 := bin >>> 18 &&& 0x00003FFF00003FFF
  let hundreds :=
    ((lo16 * 1311) >>> 15 &&& 0x0000FFFF0000FFFF) ||| ((hi16 * 1311) <<< 1 &&& 0xFFFF0000FFFF0000)
  let bin := bin + hundreds * 156
  let lo8 := bin >>> 1 &&& 0x007F007F007F007F
  let hi8 := bin >>> 9 &&& 0x007F007F007F007F
  let tens := ((lo8 * 52) >>> 8 &&& 0x00FF00FF00FF00FF) ||| (hi8 * 52 &&& 0xFF00FF00FF00FF00)
  bin + tens * 6

/-- `ct_bcd_decode_u32`. -/
def decode_u32 (bcd : BitVec 32) : BitVec 32 :=
  let bcd := bcd - (bcd >>> 4 &&& 0x0F0F0F0F) * 6
  let bcd := bcd - (bcd >>> 8 &&& 0x00FF00FF) * 156
  bcd - bcd >>> 16 * 55536

/-- `ct_bcd_decode_u64`. -/
def decode_u64 (bcd : BitVec 64) : BitVec 64 :=
  let bcd := bcd - (bcd >>> 4 &&& 0x0F0F0F0F0F0F0F0F) * 6
  let bcd := bcd - (bcd >>> 8 &&& 0x00FF00FF00FF00FF) * 156
  let bcd := bcd - (bcd >>> 16 &&& 0x0000FFFF0000FFFF) * 55536
  bcd - bcd >>> 32 * 4194967296

end Coter.Bcd
