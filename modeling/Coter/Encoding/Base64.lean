import Coter.Core.Machine
import Coter.Lib.Base64

/-!
# Base 64

`ct_base64_encoder` and `ct_base64_encode`. Neither the encoder nor `out` is `NULL`.
`out` is the block of characters it points to, up to the end of its storage.
-/

namespace Coter.Base64

/-- `CT_BASE64_ENCODE_LENGTH`. -/
def encodeLength (length : Nat) : Nat := length / 3 * 4 + if length % 3 = 0 then 0 else 4

/-- `base64_encode_single`. -/
def encodeSingle (c : Nat) : UInt8 :=
  if c < 26 then UInt8.ofNat (c + 'A'.toNat)
  else if c < 52 then UInt8.ofNat (c - 26 + 'a'.toNat)
  else if c < 62 then UInt8.ofNat (c - 52 + '0'.toNat)
  else if c = 62 then UInt8.ofNat '+'.toNat
  else UInt8.ofNat '/'.toNat

/-- `'='` -/
def padding : UInt8 := UInt8.ofNat '='.toNat

/-- `ct_base64_encoder_t`, with the bytes of `state_bytes_` one by one. -/
structure Encoder where
  b0 : UInt8
  b1 : UInt8
  b2 : UInt8
  count : Nat
  deriving DecidableEq, Repr

namespace Encoder

/-- `ct_base64_encoder_init`. -/
def init : Encoder := ⟨0, 0, 0, 0⟩

/-- `state_bytes_[state_count_] = c; state_count_++;` -/
def stash (e : Encoder) (c : UInt8) : Except Fault Encoder :=
  match e.count with
  | 0 => .ok { e with b0 := c, count := 1 }
  | 1 => .ok { e with b1 := c, count := 2 }
  | 2 => .ok { e with b2 := c, count := 3 }
  | _ => .error .bounds

/-- The four characters of three pending bytes. -/
def quad (e : Encoder) : List UInt8 :=
  [encodeSingle (e.b0.toNat >>> 2),
    encodeSingle ((e.b0.toNat &&& 3) <<< 4 ||| e.b1.toNat >>> 4),
    encodeSingle ((e.b1.toNat &&& 15) <<< 2 ||| e.b2.toNat >>> 6),
    encodeSingle (e.b2.toNat &&& 63)]

/-- The loop of `ct_base64_encoder_update`, with `written` characters in `out`: what
it returns, what `out` holds and the encoder after it. -/
def updateLoop (outMax : Nat) :
    Encoder → List UInt8 → Nat → List UInt8 → Except Fault (Nat × List UInt8 × Encoder)
  | e, out, written, [] => .ok (written, out, e)
  | e, out, written, c :: cs => do
    let e ← e.stash c
    if e.count = 3 then
      if outMax < usize (written + 4) then .ok (0, out, e)
      else do
        let out ← store out written e.quad
        updateLoop outMax { e with count := 0 } out (written + 4) cs
    else updateLoop outMax e out written cs

/-- `ct_base64_encoder_update`. -/
def update (e : Encoder) (inp : Option (List UInt8)) (out : List UInt8) (outMax : Nat) :
    Except Fault (Nat × List UInt8 × Encoder) :=
  match inp with
  | none => .ok (0, out, e)
  | some inp =>
    if e.count = 3 then
      if outMax < 4 then .ok (0, out, e)
      else do
        let out ← store out 0 e.quad
        updateLoop outMax { e with count := 0 } out 4 inp
    else updateLoop outMax e out 0 inp

/-- The characters, the terminator behind them, and the encoder with nothing pending. -/
def finish (e : Encoder) (out chars : List UInt8) : Except Fault (Nat × List UInt8 × Encoder) := do
  let out ← store out 0 (chars ++ [0])
  .ok (chars.length, out, e)

/-- `ct_base64_encoder_final`. -/
def final (e : Encoder) (out : List UInt8) (outMax : Nat) :
    Except Fault (Nat × List UInt8 × Encoder) :=
  if 0 < e.count then
    if e.count = 3 then
      if outMax < 5 then .ok (0, out, e)
      else finish { e with count := 0 } out e.quad
    else if e.count = 1 then
      if outMax < 5 then .ok (0, out, e)
      else finish { e with count := 0 } out
        [encodeSingle (e.b0.toNat >>> 2), encodeSingle ((e.b0.toNat &&& 3) <<< 4), padding, padding]
    else if e.count = 2 then
      if outMax < 5 then .ok (0, out, e)
      else finish { e with count := 0 } out
        [encodeSingle (e.b0.toNat >>> 2),
          encodeSingle ((e.b0.toNat &&& 3) <<< 4 ||| e.b1.toNat >>> 4),
          encodeSingle ((e.b1.toNat &&& 15) <<< 2), padding]
    else finish e out []
  else if outMax < 1 then .ok (0, out, e)
  else finish e out []

end Encoder

/-- `if (out_max > 0) { out[0] = '\0'; }` -/
def emptied (out : List UInt8) (outMax : Nat) : Except Fault (List UInt8) :=
  if 0 < outMax then store out 0 [0] else .ok out

/-- `ct_base64_encode`, for `data_len` bytes at `data`. -/
def encode (data : Option (List UInt8)) (dataLen : Nat) (out : List UInt8) (outMax : Nat) :
    Except Fault (Nat × List UInt8) := do
  let out ← emptied out outMax
  let quads := usize (dataLen / 3 + if dataLen % 3 ≠ 0 then 1 else 0)
  if outMax < usize (usize (quads * 4) + 1) then .ok (0, out)
  else do
    let inp ← data.mapM (fun data => load data 0 dataLen)
    let (written, out, e) ← Encoder.init.update inp out (usizeSub outMax 1)
    let (finalWritten, tail, _) ← e.final (out.drop written) (usizeSub outMax written)
    .ok (usize (written + finalWritten), out.take written ++ tail)

end Coter.Base64
