import Coter.Core.Machine
import Coter.Lib.Sha1

/-!
# SHA-1

`coter/crypto/sha1.h`. A chunk is the list of its bytes, and its length the `len` of the
call. What is asked of the compression of a block is a parameter of `ct_sha1_update`.
-/

namespace Coter.Sha1

open Lib.Blocks Lib.ByteOrder
open Lib.Sha1 (State)

/-! ## Blocks -/

def SHA1_ROL (value : BitVec 32) (bits : Nat) : BitVec 32 :=
  value <<< bits ||| value >>> (32 - bits)

/-- `SHA1_BLK0_L`: the value, and the words of the block after it. -/
def SHA1_BLK0_L (l : Nat → BitVec 32) (i : Nat) : BitVec 32 × (Nat → BitVec 32) :=
  let value := (SHA1_ROL (l i) 24 &&& 0xff00ff00) ||| (SHA1_ROL (l i) 8 &&& 0x00ff00ff)
  (value, Function.update l i value)

def SHA1_BLK0_B (l : Nat → BitVec 32) (i : Nat) : BitVec 32 × (Nat → BitVec 32) := (l i, l)

/-- `SHA1_BLK0` on a host with the given byte order. -/
def SHA1_BLK0 (host : Endian) : (Nat → BitVec 32) → Nat → BitVec 32 × (Nat → BitVec 32) :=
  match host with
  | .little => SHA1_BLK0_L
  | .big => SHA1_BLK0_B

def SHA1_BLK (l : Nat → BitVec 32) (i : Nat) : BitVec 32 × (Nat → BitVec 32) :=
  let value := SHA1_ROL
    (l ((i + 13) &&& 15) ^^^ l ((i + 8) &&& 15) ^^^ l ((i + 2) &&& 15) ^^^ l (i &&& 15)) 1
  (value, Function.update l (i &&& 15) value)

/-- What `SHA1_R0` to `SHA1_R4` differ in. -/
structure Operation where
  f : BitVec 32 → BitVec 32 → BitVec 32 → BitVec 32
  blk : (Nat → BitVec 32) → Nat → BitVec 32 × (Nat → BitVec 32)
  k : BitVec 32

def SHA1_R0 (host : Endian) : Operation where
  f w x y := (w &&& (x ^^^ y)) ^^^ y
  blk := SHA1_BLK0 host
  k := 0x5a827999

def SHA1_R1 : Operation where
  f w x y := (w &&& (x ^^^ y)) ^^^ y
  blk := SHA1_BLK
  k := 0x5a827999

def SHA1_R2 : Operation where
  f w x y := w ^^^ x ^^^ y
  blk := SHA1_BLK
  k := 0x6ed9eba1

def SHA1_R3 : Operation where
  f w x y := ((w ||| x) &&& y) ||| (w &&& x)
  blk := SHA1_BLK
  k := 0x8f1bbcdc

def SHA1_R4 : Operation where
  f w x y := w ^^^ x ^^^ y
  blk := SHA1_BLK
  k := 0xca62c1d6

/-- The working variables, and the words of the block. -/
structure Work extends State where
  l : Nat → BitVec 32

/-- What an operation leaves in `z`. -/
def Operation.z (R : Operation) (v w x y z value : BitVec 32) : BitVec 32 :=
  z + (R.f w x y + value + R.k + SHA1_ROL v 5)

/-- `R(a, b, c, d, e, i)` -/
def abcde (R : Operation) (s : Work) (i : Nat) : Work :=
  let (value, l) := R.blk s.l i
  { s with e := R.z s.a s.b s.c s.d s.e value, b := SHA1_ROL s.b 30, l := l }

/-- `R(e, a, b, c, d, i)` -/
def eabcd (R : Operation) (s : Work) (i : Nat) : Work :=
  let (value, l) := R.blk s.l i
  { s with d := R.z s.e s.a s.b s.c s.d value, a := SHA1_ROL s.a 30, l := l }

/-- `R(d, e, a, b, c, i)` -/
def deabc (R : Operation) (s : Work) (i : Nat) : Work :=
  let (value, l) := R.blk s.l i
  { s with c := R.z s.d s.e s.a s.b s.c value, e := SHA1_ROL s.e 30, l := l }

/-- `R(c, d, e, a, b, i)` -/
def cdeab (R : Operation) (s : Work) (i : Nat) : Work :=
  let (value, l) := R.blk s.l i
  { s with b := R.z s.c s.d s.e s.a s.b value, d := SHA1_ROL s.d 30, l := l }

/-- `R(b, c, d, e, a, i)` -/
def bcdea (R : Operation) (s : Work) (i : Nat) : Work :=
  let (value, l) := R.blk s.l i
  { s with a := R.z s.b s.c s.d s.e s.a value, c := SHA1_ROL s.c 30, l := l }

/-- The operations of `sha1_transform`. -/
def operations (host : Endian) (s : Work) : Work :=
  let s := abcde (SHA1_R0 host) s 0
  let s := eabcd (SHA1_R0 host) s 1
  let s := deabc (SHA1_R0 host) s 2
  let s := cdeab (SHA1_R0 host) s 3
  let s := bcdea (SHA1_R0 host) s 4
  let s := abcde (SHA1_R0 host) s 5
  let s := eabcd (SHA1_R0 host) s 6
  let s := deabc (SHA1_R0 host) s 7
  let s := cdeab (SHA1_R0 host) s 8
  let s := bcdea (SHA1_R0 host) s 9
  let s := abcde (SHA1_R0 host) s 10
  let s := eabcd (SHA1_R0 host) s 11
  let s := deabc (SHA1_R0 host) s 12
  let s := cdeab (SHA1_R0 host) s 13
  let s := bcdea (SHA1_R0 host) s 14
  let s := abcde (SHA1_R0 host) s 15
  let s := eabcd SHA1_R1 s 16
  let s := deabc SHA1_R1 s 17
  let s := cdeab SHA1_R1 s 18
  let s := bcdea SHA1_R1 s 19
  let s := abcde SHA1_R2 s 20
  let s := eabcd SHA1_R2 s 21
  let s := deabc SHA1_R2 s 22
  let s := cdeab SHA1_R2 s 23
  let s := bcdea SHA1_R2 s 24
  let s := abcde SHA1_R2 s 25
  let s := eabcd SHA1_R2 s 26
  let s := deabc SHA1_R2 s 27
  let s := cdeab SHA1_R2 s 28
  let s := bcdea SHA1_R2 s 29
  let s := abcde SHA1_R2 s 30
  let s := eabcd SHA1_R2 s 31
  let s := deabc SHA1_R2 s 32
  let s := cdeab SHA1_R2 s 33
  let s := bcdea SHA1_R2 s 34
  let s := abcde SHA1_R2 s 35
  let s := eabcd SHA1_R2 s 36
  let s := deabc SHA1_R2 s 37
  let s := cdeab SHA1_R2 s 38
  let s := bcdea SHA1_R2 s 39
  let s := abcde SHA1_R3 s 40
  let s := eabcd SHA1_R3 s 41
  let s := deabc SHA1_R3 s 42
  let s := cdeab SHA1_R3 s 43
  let s := bcdea SHA1_R3 s 44
  let s := abcde SHA1_R3 s 45
  let s := eabcd SHA1_R3 s 46
  let s := deabc SHA1_R3 s 47
  let s := cdeab SHA1_R3 s 48
  let s := bcdea SHA1_R3 s 49
  let s := abcde SHA1_R3 s 50
  let s := eabcd SHA1_R3 s 51
  let s := deabc SHA1_R3 s 52
  let s := cdeab SHA1_R3 s 53
  let s := bcdea SHA1_R3 s 54
  let s := abcde SHA1_R3 s 55
  let s := eabcd SHA1_R3 s 56
  let s := deabc SHA1_R3 s 57
  let s := cdeab SHA1_R3 s 58
  let s := bcdea SHA1_R3 s 59
  let s := abcde SHA1_R4 s 60
  let s := eabcd SHA1_R4 s 61
  let s := deabc SHA1_R4 s 62
  let s := cdeab SHA1_R4 s 63
  let s := bcdea SHA1_R4 s 64
  let s := abcde SHA1_R4 s 65
  let s := eabcd SHA1_R4 s 66
  let s := deabc SHA1_R4 s 67
  let s := cdeab SHA1_R4 s 68
  let s := bcdea SHA1_R4 s 69
  let s := abcde SHA1_R4 s 70
  let s := eabcd SHA1_R4 s 71
  let s := deabc SHA1_R4 s 72
  let s := cdeab SHA1_R4 s 73
  let s := bcdea SHA1_R4 s 74
  let s := abcde SHA1_R4 s 75
  let s := eabcd SHA1_R4 s 76
  let s := deabc SHA1_R4 s 77
  let s := cdeab SHA1_R4 s 78
  let s := bcdea SHA1_R4 s 79
  s

/-- `sha1_transform`: the words of the block are those of the host. -/
def transform (host : Endian) (state : State) (buffer : List UInt8) : State :=
  let l i := BitVec.ofNat 32 (decode host (read buffer (4 * i) 4))
  let s := operations host ⟨state, l⟩
  ⟨state.a + s.a, state.b + s.b, state.c + s.c, state.d + s.d, state.e + s.e⟩

/-! ## The context -/

/-- The 64 bytes of `buffer_`. -/
def Buffer : Type := { bytes : List UInt8 // bytes.length = 64 }

/-- `memcpy` into the buffer. -/
def Buffer.store (buffer : Buffer) (o : Nat) (b : List UInt8) : Except Fault Buffer :=
  if h : o + b.length ≤ 64 then
    .ok ⟨write buffer.1 o b, by rw [write_length (by rwa [buffer.2]), buffer.2]⟩
  else .error .bounds

/-- `ct_sha1_ctx_t`, with the state of a hash function on blocks. -/
structure Ctx (σ : Type) where
  state_ : σ
  count_0 : BitVec 32
  count_1 : BitVec 32
  buffer_ : Buffer

def zeros : Buffer := ⟨List.replicate 64 0, List.length_replicate⟩

/-- `ct_sha1_init`. The buffer keeps what was in it. -/
def init (buffer_ : Buffer) : Ctx State where
  state_ := ⟨0x67452301, 0xefcdab89, 0x98badcfe, 0x10325476, 0xc3d2e1f0⟩
  count_0 := 0
  count_1 := 0
  buffer_ := buffer_

section

variable {σ : Type} (transform : σ → List UInt8 → σ) (fuel : Nat)

/-- The loop of `ct_sha1_update`, whose index has 32 bits. -/
def block_loop (data : List UInt8) : Nat → BitVec 32 → σ → Except Fault (BitVec 32 × σ)
  | 0, _, _ => .error .fuel
  | fuel + 1, i, state_ =>
    if usize (i.toNat + 64) ≤ data.length then do
      let block ← load data i.toNat 64
      block_loop data fuel (i + 64) (transform state_ block)
    else return (i, state_)

/-- `ct_sha1_update`. -/
def update (context : Ctx σ) (data : List UInt8) : Except Fault (Ctx σ) := do
  let len := data.length
  let j := context.count_0
  let count_0 := j + BitVec.ofNat 32 len <<< 3
  let count_1 := if count_0 < j then context.count_1 + 1 else context.count_1
  let count_1 := count_1 + BitVec.ofNat 32 (len >>> 29)
  let j := j >>> 3 &&& 63
  let (i, j, state_, buffer_) ← (if usize (j.toNat + len) > 63 then do
      let i : BitVec 32 := 64 - j
      let bytes ← load data 0 i.toNat
      let buffer_ ← context.buffer_.store j.toNat bytes
      let (i, state_) ← block_loop transform data fuel i (transform context.state_ buffer_.1)
      return (i, (0 : BitVec 32), state_, buffer_)
    else return ((0 : BitVec 32), j, context.state_, context.buffer_))
  let rest ← load data i.toNat (usizeSub len i.toNat)
  let buffer_ ← buffer_.store j.toNat rest
  return ⟨state_, count_0, count_1, buffer_⟩

/-- The loop of `ct_sha1_final` that fills the last block up to the number of bits. -/
def pad_loop : Nat → Ctx σ → Except Fault (Ctx σ)
  | 0, _ => .error .fuel
  | turns + 1, context =>
    if context.count_0 &&& 504 ≠ 448 then do
      let context ← update transform fuel context [0]
      pad_loop turns context
    else return context

end

/-- `(unsigned char)((word >> ((3 - (i & 3)) * 8)) & 255)` -/
def byte (word : BitVec 32) (i : Nat) : UInt8 :=
  .ofBitVec ((word >>> ((3 - (i &&& 3)) * 8) &&& 255).setWidth 8)

/-- `state_[n]` -/
def register (s : State) (n : Nat) : BitVec 32 := [s.a, s.b, s.c, s.d, s.e].getD n 0

/-- `ct_sha1_final`: the digest, and the context after it. -/
def final (host : Endian) (fuel : Nat) (context : Ctx State) :
    Except Fault (List UInt8 × Ctx State) := do
  let finalcount := (List.range 8).map fun i =>
    byte (if i ≥ 4 then context.count_0 else context.count_1) i
  let context ← update (transform host) fuel context [0x80]
  let context ← pad_loop (transform host) fuel fuel context
  let context ← update (transform host) fuel context finalcount
  let digest := (List.range 20).map fun i => byte (register context.state_ (i >>> 2)) i
  return (digest, ⟨⟨0, 0, 0, 0, 0⟩, 0, 0, zeros⟩)

/-- `ct_sha1_sum`, with what was on the stack in the buffer of `ctx`. -/
def sum (host : Endian) (fuel : Nat) (buffer_ : Buffer) (data : List UInt8) :
    Except Fault (List UInt8) := do
  let ctx ← update (transform host) fuel (init buffer_) data
  let (digest, _) ← final host fuel ctx
  return digest

end Coter.Sha1
