import Coter.Encoding.Base64

/-!
# The base 64 decoder

`ct_base64_decode`. `out` is not `NULL`, and is the block of characters it points to,
up to the end of its storage. A `char` is its byte, whatever its sign: no byte from
128 on is in the alphabet.
-/

namespace Coter.Base64

/-- `base64_decode_single`. -/
def decodeSingle (c : UInt8) : Int :=
  let c := c.toNat
  if 'A'.toNat ≤ c ∧ c ≤ 'Z'.toNat then (c - 'A'.toNat : Nat)
  else if 'a'.toNat ≤ c ∧ c ≤ 'z'.toNat then (c + 26 - 'a'.toNat : Nat)
  else if '0'.toNat ≤ c ∧ c ≤ '9'.toNat then (c + 52 - '0'.toNat : Nat)
  else if c = '+'.toNat then 62
  else if c = '/'.toNat then 63
  else if c = '='.toNat then 64
  else -1

/-- `(char)((a << 2) | (b >> 4))` -/
def byte0 (a b : Int) : UInt8 := UInt8.ofNat (a.toNat <<< 2 ||| b.toNat >>> 4)

/-- `(char)((b << 4) | (c >> 2))` -/
def byte1 (b c : Int) : UInt8 := UInt8.ofNat (b.toNat <<< 4 ||| c.toNat >>> 2)

/-- `(char)((c << 6) | d)` -/
def byte2 (c d : Int) : UInt8 := UInt8.ofNat (c.toNat <<< 6 ||| d.toNat)

/-- The loop of `ct_base64_decode` from `data` on, with `len` bytes in `out`. -/
def decodeLoop : List UInt8 → List UInt8 → Nat → Except Fault (Nat × List UInt8)
  | c0 :: c1 :: c2 :: c3 :: rest, out, len =>
    let a := decodeSingle c0
    let b := decodeSingle c1
    let c := decodeSingle c2
    let d := decodeSingle c3
    if a = 64 ∨ a < 0 ∨ b = 64 ∨ b < 0 ∨ c < 0 ∨ d < 0 then .ok (0, out)
    else do
      let out ← store out len [byte0 a b]
      if c2 ≠ padding then do
        let out ← store out (len + 1) [byte1 b c]
        if c3 ≠ padding then do
          let out ← store out (len + 2) [byte2 c d]
          decodeLoop rest out (len + 3)
        else decodeLoop rest out (len + 2)
      else decodeLoop rest out (len + 1)
  | _, out, len => do
    let out ← store out len [0]
    .ok (len, out)

/-- `ct_base64_decode`, for `data_len` characters at `data`. The size that the check
computes is below `2 ^ 64` for every `data_len`. -/
def decode (data : Option (List UInt8)) (dataLen : Nat) (out : List UInt8) (outMax : Nat) :
    Except Fault (Nat × List UInt8) := do
  let out ← emptied out outMax
  if outMax < dataLen / 4 * 3 + 1 then .ok (0, out)
  else
    match data with
    | none => decodeLoop [] out 0
    | some data => do
      let inp ← load data 0 dataLen
      decodeLoop inp out 0

end Coter.Base64
