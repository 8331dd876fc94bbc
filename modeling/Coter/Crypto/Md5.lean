import Coter.Core.Machine
import Coter.Lib.Md5

/-!
# MD5

`coter/crypto/md5.h`. A chunk is the list of its bytes, and its length the `len` of the
call. The four words of `buf_` are the registers of the algorithm.
-/

namespace Coter.Md5

open Lib.Blocks
open Lib.Md5 (State)

/-- `ct_md5_ctx_t`. -/
structure Ctx where
  buf_ : State
  bits_0 : BitVec 32
  bits_1 : BitVec 32
  in_ : List UInt8

/-- `md5_load_le32` at the offset `o`. -/
def load_le32 (p : List UInt8) (o : Nat) : Except Fault (BitVec 32) := do
  let p ← load p o 4
  let byte i := (p.getD i 0).toBitVec.setWidth 32
  return byte 0 ||| byte 1 <<< 8 ||| byte 2 <<< 16 ||| byte 3 <<< 24

/-- The bytes that `md5_store_le32` writes. -/
def store_le32 (v : BitVec 32) : List UInt8 :=
  [.ofBitVec (v.setWidth 8), .ofBitVec ((v >>> 8).setWidth 8), .ofBitVec ((v >>> 16).setWidth 8),
    .ofBitVec ((v >>> 24).setWidth 8)]

def F1 (x y z : BitVec 32) : BitVec 32 := z ^^^ (x &&& (y ^^^ z))

def F2 (x y z : BitVec 32) : BitVec 32 := F1 z x y

def F3 (x y z : BitVec 32) : BitVec 32 := x ^^^ y ^^^ z

def F4 (x y z : BitVec 32) : BitVec 32 := y ^^^ (x ||| ~~~z)

/-- What `MD5STEP` leaves in `w`. -/
def MD5STEP (f : BitVec 32 → BitVec 32 → BitVec 32 → BitVec 32) (w x y z data : BitVec 32)
    (s : Nat) : BitVec 32 :=
  let w := w + (f x y z + data)
  let w := w <<< s ||| w >>> (32 - s)
  w + x

/-- `MD5STEP(f, a, b, c, d, data, n)` -/
def abcd (f : BitVec 32 → BitVec 32 → BitVec 32 → BitVec 32) (s : State) (data : BitVec 32)
    (n : Nat) : State := { s with a := MD5STEP f s.a s.b s.c s.d data n }

/-- `MD5STEP(f, d, a, b, c, data, n)` -/
def dabc (f : BitVec 32 → BitVec 32 → BitVec 32 → BitVec 32) (s : State) (data : BitVec 32)
    (n : Nat) : State := { s with d := MD5STEP f s.d s.a s.b s.c data n }

/-- `MD5STEP(f, c, d, a, b, data, n)` -/
def cdab (f : BitVec 32 → BitVec 32 → BitVec 32 → BitVec 32) (s : State) (data : BitVec 32)
    (n : Nat) : State := { s with c := MD5STEP f s.c s.d s.a s.b data n }

/-- `MD5STEP(f, b, c, d, a, data, n)` -/
def bcda (f : BitVec 32 → BitVec 32 → BitVec 32 → BitVec 32) (s : State) (data : BitVec 32)
    (n : Nat) : State := { s with b := MD5STEP f s.b s.c s.d s.a data n }

/-- The steps of `md5_transform` on the words `x` of the block. -/
def steps (s : State) (x : Nat → BitVec 32) : State :=
  let s := abcd F1 s (x 0 + 0xd76aa478) 7
  let s := dabc F1 s (x 1 + 0xe8c7b756) 12
  let s := cdab F1 s (x 2 + 0x242070db) 17
  let s := bcda F1 s (x 3 + 0xc1bdceee) 22
  let s := abcd F1 s (x 4 + 0xf57c0faf) 7
  let s := dabc F1 s (x 5 + 0x4787c62a) 12
  let s := cdab F1 s (x 6 + 0xa8304613) 17
  let s := bcda F1 s (x 7 + 0xfd469501) 22
  let s := abcd F1 s (x 8 + 0x698098d8) 7
  let s := dabc F1 s (x 9 + 0x8b44f7af) 12
  let s := cdab F1 s (x 10 + 0xffff5bb1) 17
  let s := bcda F1 s (x 11 + 0x895cd7be) 22
  let s := abcd F1 s (x 12 + 0x6b901122) 7
  let s := dabc F1 s (x 13 + 0xfd987193) 12
  let s := cdab F1 s (x 14 + 0xa679438e) 17
  let s := bcda F1 s (x 15 + 0x49b40821) 22
  let s := abcd F2 s (x 1 + 0xf61e2562) 5
  let s := dabc F2 s (x 6 + 0xc040b340) 9
  let s := cdab F2 s (x 11 + 0x265e5a51) 14
  let s := bcda F2 s (x 0 + 0xe9b6c7aa) 20
  let s := abcd F2 s (x 5 + 0xd62f105d) 5
  let s := dabc F2 s (x 10 + 0x02441453) 9
  let s := cdab F2 s (x 15 + 0xd8a1e681) 14
  let s := bcda F2 s (x 4 + 0xe7d3fbc8) 20
  let s := abcd F2 s (x 9 + 0x21e1cde6) 5
  let s := dabc F2 s (x 14 + 0xc33707d6) 9
  let s := cdab F2 s (x 3 + 0xf4d50d87) 14
  let s := bcda F2 s (x 8 + 0x455a14ed) 20
  let s := abcd F2 s (x 13 + 0xa9e3e905) 5
  let s := dabc F2 s (x 2 + 0xfcefa3f8) 9
  let s := cdab F2 s (x 7 + 0x676f02d9) 14
  let s := bcda F2 s (x 12 + 0x8d2a4c8a) 20
  let s := abcd F3 s (x 5 + 0xfffa3942) 4
  let s := dabc F3 s (x 8 + 0x8771f681) 11
  let s := cdab F3 s (x 11 + 0x6d9d6122) 16
  let s := bcda F3 s (x 14 + 0xfde5380c) 23
  let s := abcd F3 s (x 1 + 0xa4beea44) 4
  let s := dabc F3 s (x 4 + 0x4bdecfa9) 11
  let s := cdab F3 s (x 7 + 0xf6bb4b60) 16
  let s := bcda F3 s (x 10 + 0xbebfbc70) 23
  let s := abcd F3 s (x 13 + 0x289b7ec6) 4
  let s := dabc F3 s (x 0 + 0xeaa127fa) 11
  let s := cdab F3 s (x 3 + 0xd4ef3085) 16
  let s := bcda F3 s (x 6 + 0x04881d05) 23
  let s := abcd F3 s (x 9 + 0xd9d4d039) 4
  let s := dabc F3 s (x 12 + 0xe6db99e5) 11
  let s := cdab F3 s (x 15 + 0x1fa27cf8) 16
  let s := bcda F3 s (x 2 + 0xc4ac5665) 23
  let s := abcd F4 s (x 0 + 0xf4292244) 6
  let s := dabc F4 s (x 7 + 0x432aff97) 10
  let s := cdab F4 s (x 14 + 0xab9423a7) 15
  let s := bcda F4 s (x 5 + 0xfc93a039) 21
  let s := abcd F4 s (x 12 + 0x655b59c3) 6
  let s := dabc F4 s (x 3 + 0x8f0ccc92) 10
  let s := cdab F4 s (x 10 + 0xffeff47d) 15
  let s := bcda F4 s (x 1 + 0x85845dd1) 21
  let s := abcd F4 s (x 8 + 0x6fa87e4f) 6
  let s := dabc F4 s (x 15 + 0xfe2ce6e0) 10
  let s := cdab F4 s (x 6 + 0xa3014314) 15
  let s := bcda F4 s (x 13 + 0x4e0811a1) 21
  let s := abcd F4 s (x 4 + 0xf7537e82) 6
  let s := dabc F4 s (x 11 + 0xbd3af235) 10
  let s := cdab F4 s (x 2 + 0x2ad7d2bb) 15
  let s := bcda F4 s (x 9 + 0xeb86d391) 21
  s

/-- `md5_transform`. -/
def transform (buf : State) (block : List UInt8) : Except Fault State := do
  let in_ ← (List.range 16).mapM fun i => load_le32 block (i * 4)
  let s := steps buf fun i => in_.getD i 0
  return ⟨buf.a + s.a, buf.b + s.b, buf.c + s.c, buf.d + s.d⟩

/-- `ct_md5_init`. -/
def init : Ctx where
  buf_ := ⟨0x67452301, 0xefcdab89, 0x98badcfe, 0x10325476⟩
  bits_0 := 0
  bits_1 := 0
  in_ := List.replicate 64 0

/-- The loop of `ct_md5_update`, and what it keeps in the buffer for the next call. -/
def block_loop (buf_ : State) (in_ data : List UInt8) : Except Fault (State × List UInt8) :=
  if data.length ≥ 64 then do
    let block ← load data 0 64
    let in_ ← store in_ 0 block
    let buf_ ← transform buf_ in_
    block_loop buf_ in_ (data.drop 64)
  else do
    let in_ ← store in_ 0 data
    return (buf_, in_)
termination_by data.length
decreasing_by
  rw [List.length_drop]
  omega

/-- `ct_md5_update`. -/
def update (self : Ctx) (data : List UInt8) : Except Fault Ctx := do
  let len := data.length
  let t := self.bits_0
  let bits_0 := t + BitVec.ofNat 32 len <<< 3
  let bits_1 := if bits_0 < t then self.bits_1 + 1 else self.bits_1
  let bits_1 := bits_1 + BitVec.ofNat 32 (len >>> 29)
  let t := (t >>> 3 &&& 0x3f).toNat
  if t ≠ 0 then
    let p := t
    let t := 64 - t
    if len < t then
      let in_ ← store self.in_ p data
      return ⟨self.buf_, bits_0, bits_1, in_⟩
    else
      let bytes ← load data 0 t
      let in_ ← store self.in_ p bytes
      let buf_ ← transform self.buf_ in_
      let (buf_, in_) ← block_loop buf_ in_ (data.drop t)
      return ⟨buf_, bits_0, bits_1, in_⟩
  else
    let (buf_, in_) ← block_loop self.buf_ self.in_ data
    return ⟨buf_, bits_0, bits_1, in_⟩

/-- `memset` of `n` bytes at the offset `p`. -/
def clear (in_ : List UInt8) (p n : Nat) : Except Fault (List UInt8) :=
  store in_ p (List.replicate n 0)

/-- `ct_md5_final`: the digest, and the context after it. -/
def final (self : Ctx) : Except Fault (List UInt8 × Ctx) := do
  let count := (self.bits_0 >>> 3 &&& 0x3f).toNat
  let in_ ← store self.in_ count [0x80]
  let p := count + 1
  let count := 64 - 1 - count
  let (buf_, in_) ← (if count < 8 then do
      let in_ ← clear in_ p count
      let buf_ ← transform self.buf_ in_
      let in_ ← clear in_ 0 56
      return (buf_, in_)
    else do
      let in_ ← clear in_ p (count - 8)
      return (self.buf_, in_))
  let in_ ← store in_ 56 (store_le32 self.bits_0)
  let in_ ← store in_ 60 (store_le32 self.bits_1)
  let buf_ ← transform buf_ in_
  return (store_le32 buf_.a ++ store_le32 buf_.b ++ store_le32 buf_.c ++ store_le32 buf_.d, init)

/-- `ct_md5_sum`. -/
def sum (data : List UInt8) : Except Fault (List UInt8) := do
  let ctx ← update init data
  let (digest, _) ← final ctx
  return digest

end Coter.Md5
