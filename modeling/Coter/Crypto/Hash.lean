import Coter.Core.Machine
import Coter.Encoding.Binary
import Coter.Lib.Murmur
import Coter.Lib.SipHash

/-!
# Hash algorithms

`coter/crypto/hash/hash.h`. The data is the list of its bytes, or a null pointer, and its
length is the `size` of the call.
-/

namespace Coter.Hash

open Lib.Blocks Lib.ByteOrder
open Lib.SipHash (State)

/-! ## Plain characters -/

/-- The plain `char` of a platform. -/
inductive Plain
  | signed
  | unsigned
  deriving DecidableEq, Repr

/-- `data[i]`, converted to `uint32_t`. A shift to the left has the same bits before and
after the conversion. -/
def char (plain : Plain) (b : UInt8) : BitVec 32 :=
  match plain with
  | .signed => b.toBitVec.signExtend 32
  | .unsigned => b.toBitVec.setWidth 32

/-- What each function does with a null pointer first. -/
def notNull {w : Nat} (hash : List UInt8 → BitVec w) (data : Option (List UInt8)) : BitVec w :=
  match data with
  | none => 0
  | some data => hash data

section

variable (plain : Plain)

/-- `ct_hashalgo_times33`. -/
def times33 : Option (List UInt8) → BitVec 32 :=
  notNull fun data => data.foldl (fun hash b => ((hash <<< 5) + hash) + char plain b) 5381

/-- `ct_hashalgo_bkdr`. -/
def bkdr : Option (List UInt8) → BitVec 32 :=
  notNull fun data => data.foldl (fun hash b => hash * 131 + char plain b) 0

/-- The body of the loop of `ct_hashalgo_pjw`. -/
def pjw_step (val : BitVec 32) (b : UInt8) : BitVec 32 :=
  let val := (val <<< 4) + char plain b
  let tmp := val &&& 0xf0000000
  if tmp ≠ 0 then (val ^^^ (tmp >>> 24)) ^^^ tmp else val

/-- `ct_hashalgo_pjw`. -/
def pjw : Option (List UInt8) → BitVec 32 :=
  notNull fun data => data.foldl (pjw_step plain) 0

/-- The loop of `ct_hashalgo_murmurhash2`, and the data behind it. -/
def murmur_loop (h : BitVec 32) : List UInt8 → BitVec 32 × List UInt8
  | b0 :: b1 :: b2 :: b3 :: data =>
    let k := char plain b0
    let k := k ||| char plain b1 <<< 8
    let k := k ||| char plain b2 <<< 16
    let k := k ||| char plain b3 <<< 24
    let k := k * 0x5bd1e995
    let k := k ^^^ k >>> 24
    let k := k * 0x5bd1e995
    let h := h * 0x5bd1e995
    let h := h ^^^ k
    murmur_loop h data
  | data => (h, data)

/-- The cases of `ct_hashalgo_murmurhash2`, each of which falls through to the next. -/
def murmur_switch (h : BitVec 32) (data : List UInt8) : Nat → BitVec 32
  | 3 => murmur_switch (h ^^^ char plain (data.getD 2 0) <<< 16) data 2
  | 2 => murmur_switch (h ^^^ char plain (data.getD 1 0) <<< 8) data 1
  | 1 => (h ^^^ char plain (data.getD 0 0)) * 0x5bd1e995
  | _ => h

/-- `ct_hashalgo_murmurhash2`. -/
def murmurhash2 : Option (List UInt8) → BitVec 32 :=
  notNull fun data =>
    let (h, data) := murmur_loop plain (0 ^^^ BitVec.ofNat 32 data.length) data
    let h := murmur_switch plain h data data.length
    let h := h ^^^ h >>> 13
    let h := h * 0x5bd1e995
    h ^^^ h >>> 15

end

/-! ## SipHash -/

/-- `ct_le_get_u64` at the offset `o`. -/
def le_get_u64 (host : Endian) (buf : List UInt8) (o : Nat) : Except Fault (BitVec 64) := do
  let bytes ← load buf o 8
  let val := BitVec.ofNat 64 (decode host bytes)
  return match host with
    | .big => Binary.bswap64 val
    | .little => val

def ROTATE (x : BitVec 64) (b : Nat) : BitVec 64 := x <<< b ||| x >>> (64 - b)

/-- `HALF_ROUND`: what it leaves in `a`, `b`, `c` and `d`. -/
def HALF_ROUND (a b c d : BitVec 64) (s t : Nat) : BitVec 64 × BitVec 64 × BitVec 64 × BitVec 64 :=
  let a := a + b
  let c := c + d
  let b := ROTATE b s ^^^ a
  let d := ROTATE d t ^^^ c
  let a := ROTATE a 32
  (a, b, c, d)

def DOUBLE_ROUND (v : State) : State :=
  let (v0, v1, v2, v3) := HALF_ROUND v.v0 v.v1 v.v2 v.v3 13 16
  let (v2, v1, v0, v3) := HALF_ROUND v2 v1 v0 v3 17 21
  let (v0, v1, v2, v3) := HALF_ROUND v0 v1 v2 v3 13 16
  let (v2, v1, v0, v3) := HALF_ROUND v2 v1 v0 v3 17 21
  ⟨v0, v1, v2, v3⟩

/-- The loop of `ct_hashalgo_siphash_64`, and the data behind it. -/
def siphash_loop (host : Endian) (v : State) (data : List UInt8) :
    Except Fault (State × List UInt8) :=
  if data.length ≥ 8 then do
    let mi ← le_get_u64 host data 0
    let v := { v with v3 := v.v3 ^^^ mi }
    let v := DOUBLE_ROUND v
    let v := { v with v0 := v.v0 ^^^ mi }
    siphash_loop host v (data.drop 8)
  else return (v, data)
termination_by data.length
decreasing_by
  rw [List.length_drop]
  omega

/-- `pt[i] = m[i]` -/
def copy (pt m : List UInt8) (i : Nat) : Except Fault (List UInt8) := do
  let b ← load m i 1
  store pt i b

/-- The cases of `ct_hashalgo_siphash_64`, most of which fall through to the next. -/
def siphash_switch (pt m : List UInt8) : Nat → Except Fault (List UInt8)
  | 7 => do
    let pt ← copy pt m 6
    siphash_switch pt m 6
  | 6 => do
    let pt ← copy pt m 5
    siphash_switch pt m 5
  | 5 => do
    let pt ← copy pt m 4
    siphash_switch pt m 4
  | 4 => do
    let b ← load m 0 4
    store pt 0 b
  | 3 => do
    let pt ← copy pt m 2
    siphash_switch pt m 2
  | 2 => do
    let pt ← copy pt m 1
    siphash_switch pt m 1
  | 1 => copy pt m 0
  | _ => return pt

/-- `ct_hashalgo_siphash_64`. -/
def siphash_64 (host : Endian) (data : Option (List UInt8)) (siphash_keys : List UInt8) :
    Except Fault (BitVec 64) :=
  match data with
  | none => return 0
  | some data => do
    let k0 ← le_get_u64 host siphash_keys 0
    let k1 ← le_get_u64 host siphash_keys 8
    let v : State := {
      v0 := 0x736f6d6570736575 ^^^ k0
      v1 := 0x646f72616e646f6d ^^^ k1
      v2 := 0x6c7967656e657261 ^^^ k0
      v3 := 0x7465646279746573 ^^^ k1 }
    let b := BitVec.ofNat 64 data.length <<< 56
    let (v, m) ← siphash_loop host v data
    let t ← siphash_switch (List.replicate 8 0) m m.length
    let last ← le_get_u64 host t 0
    let b := b ||| last
    let v := { v with v3 := v.v3 ^^^ b }
    let v := DOUBLE_ROUND v
    let v := { v with v0 := v.v0 ^^^ b }
    let v := { v with v2 := v.v2 ^^^ 0xff }
    let v := DOUBLE_ROUND v
    let v := DOUBLE_ROUND v
    return (v.v0 ^^^ v.v1) ^^^ (v.v2 ^^^ v.v3)

end Coter.Hash
