import Coter.Core.Machine

/-!
# Hexadecimal strings

`ct_hex_encode` and `ct_hex_decode`. A pointer is `none` for `NULL`, and else the block
it points to, up to the end of its storage.
-/

namespace Coter.Hex

/-- `s_hex_encode_table`, without the terminator. -/
def encodeTable : List Char :=
  ['0', '1', '2', '3', '4', '5', '6', '7', '8', '9', 'a', 'b', 'c', 'd', 'e', 'f']

/-- Sixteen entries of `s_hex_decode_table` that are no digits. -/
def blank : List Int := List.replicate 16 (-1)

/-- `s_hex_decode_table` -/
def decodeTable : List Int :=
  blank ++ blank ++ blank ++
  [0, 1, 2, 3, 4, 5, 6, 7, 8, 9, -1, -1, -1, -1, -1, -1] ++
  [-1, 10, 11, 12, 13, 14, 15, -1, -1, -1, -1, -1, -1, -1, -1, -1] ++
  blank ++
  [-1, 10, 11, 12, 13, 14, 15, -1, -1, -1, -1, -1, -1, -1, -1, -1] ++
  blank ++
  blank ++ blank ++ blank ++ blank ++ blank ++ blank ++ blank ++ blank

/-- `s_hex_encode_table[n]` -/
def digit (n : Nat) : UInt8 := UInt8.ofNat (encodeTable.getD n '0').toNat

/-- `s_hex_decode_table[(uint8_t)c]` -/
def entry (c : UInt8) : Int := decodeTable.getD c.toNat (-1)

/-- The loop of `ct_hex_encode` from `src + i` on: where it stops, and what `out` holds. -/
def encodeLoop (max : Nat) : List UInt8 → Nat → List UInt8 → Except Fault (Nat × List UInt8)
  | [], i, out => .ok (i, out)
  | c :: cs, i, out =>
    if usize (usize (i * 2) + 1) < max then do
      let out ← store out (usize (i * 2)) [digit (c.toNat >>> 4 &&& 0x0F)]
      let out ← store out (usize (usize (i * 2) + 1)) [digit (c.toNat &&& 0x0F)]
      encodeLoop max cs (i + 1) out
    else .ok (i, out)

/-- `ct_hex_encode`. -/
def encode (data : Option (List UInt8)) (dataLen : Nat) (out : Option (List UInt8)) (max : Nat) :
    Except Fault (Int × Option (List UInt8)) :=
  match data, out with
  | some data, some out =>
    if max = 0 then .ok (-1, some out)
    else do
      let src ← load data 0 dataLen
      let (i, out) ← encodeLoop max src 0 out
      let out ← if usize (i * 2) < max then store out (usize (i * 2)) [0] else .ok out
      .ok (i32 (usize (i * 2)), some out)
  | _, out => .ok (-1, out)

/-- `while (*p) { ++p; }`: how far to the terminator, which may lie behind the storage. -/
def strlen : List UInt8 → Except Fault Nat
  | [] => .error .bounds
  | c :: cs =>
    if c = 0 then .ok 0
    else do
      let n ← strlen cs
      .ok (n + 1)

/-- The loop of `ct_hex_decode` from `hex + i` on, for an even length. -/
def decodeLoop (max : Nat) : List UInt8 → Nat → List UInt8 → Except Fault (Int × List UInt8)
  | c0 :: c1 :: rest, i, out =>
    if i / 2 < max then
      let high := entry c0
      let low := entry c1
      if high = -1 ∨ low = -1 then .ok (-1, out)
      else do
        let out ← store out (i / 2) [UInt8.ofNat (high.toNat <<< 4 ||| low.toNat)]
        decodeLoop max rest (i + 2) out
    else .ok (i32 (i / 2 : Nat), out)
  | _, i, out => .ok (i32 (i / 2 : Nat), out)

/-- `ct_hex_decode`. -/
def decode (hex : Option (List UInt8)) (hexLen : Nat) (out : Option (List UInt8)) (max : Nat) :
    Except Fault (Int × Option (List UInt8)) :=
  match hex, out with
  | some hex, some out =>
    if max = 0 then .ok (-1, some out)
    else do
      let hexLen ← if hexLen = 0 then strlen hex else .ok hexLen
      if hexLen % 2 ≠ 0 then .ok (-1, some out)
      else do
        let hex ← load hex 0 hexLen
        let (r, out) ← decodeLoop max hex 0 out
        .ok (r, some out)
  | _, out => .ok (-1, out)

end Coter.Hex
