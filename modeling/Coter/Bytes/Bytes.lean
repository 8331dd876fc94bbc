import Coter.Core.Machine
import Coter.Encoding.Binary

/-!
# The byte buffer

`ct_bytes`: a buffer over external memory with a cursor. Values and blocks are
put and taken at the cursor, and read or written at absolute offsets and at
offsets from the cursor. A view is a buffer over a part of another one.

Buffers share one memory, and `data_` is an address in it. An access at or beyond
`cap_` counts as a fault even where there is memory. A block that the caller
passes is given by its bytes, a block that it receives is part of the answer.
-/

namespace Coter

open Lib.ByteOrder

/-- `ct_bytes_t`. -/
structure Bytes where
  data : Nat
  cap : Nat
  len : Nat
  pos : Nat
  endian : Endian
  hlswap : Bool
  overflow : Bool
  deriving DecidableEq, Repr

/-- The types of the typed operations. -/
inductive Width
  | u8
  | u16
  | u32
  | u64
  deriving DecidableEq, Repr

def Width.bytes : Width → Nat
  | .u8 => 1
  | .u16 => 2
  | .u32 => 4
  | .u64 => 8

def Width.bits : Width → Nat
  | .u8 => 8
  | .u16 => 16
  | .u32 => 32
  | .u64 => 64

namespace Bytes

abbrev Mem := List UInt8

/-! ## Cursors and views -/

/-- `ct_bytes_init`. -/
def init (data cap : Nat) : Bytes where
  data := data
  cap := u32 cap
  len := 0
  pos := 0
  endian := .big
  hlswap := false
  overflow := false

/-- `ct_bytes_from`. -/
def «from» (data cap len : Nat) : Bytes :=
  { init data cap with len := if u32 len ≤ u32 cap then u32 len else u32 cap }

def readable (b : Bytes) : Nat := u32Sub b.len b.pos

def writable (b : Bytes) : Nat := u32Sub b.cap b.pos

/-- `overflow_ = 1` -/
def fail (b : Bytes) : Bytes := { b with overflow := true }

/-- `ct_bytes_rewind`. -/
def rewind (b : Bytes) : Bytes := { b with pos := 0 }

/-- `ct_bytes_clear`. -/
def clear (b : Bytes) : Bytes := { b with len := 0, pos := 0, overflow := false }

/-- `ct_bytes_clear_error`. -/
def clearError (b : Bytes) : Bytes := { b with overflow := false }

/-- `ct_bytes_set_endian`. -/
def setEndian (b : Bytes) (byteOrder : Endian) : Bytes := { b with endian := byteOrder }

/-- `ct_bytes_set_hlswap`. -/
def setHlswap (b : Bytes) (wordSwap : Bool) : Bytes := { b with hlswap := wordSwap }

/-- `ct_bytes_seek`. -/
def seek (b : Bytes) (offset : Nat) : Int × Bytes :=
  if b.len < offset then (-1, b.fail) else (0, { b with pos := u32 offset })

/-- `ct_bytes_reseek`. -/
def reseek (b : Bytes) (offset : Nat) : Int × Bytes :=
  if b.len < offset then (-1, b.fail) else (0, { b with pos := u32Sub b.len (u32 offset) })

/-- A request cut down to what is there, with the error flag if it was. -/
def clamp (b : Bytes) (length limit : Nat) : Nat × Bytes :=
  if limit < length then (limit, b.fail) else (length, b)

/-- `pos_ += n; if (pos_ > len_) { len_ = pos_; }` -/
def advance (b : Bytes) (n : Nat) : Bytes :=
  let pos := u32 (b.pos + u32 n)
  { b with pos, len := if b.len < pos then pos else b.len }

/-- `ct_bytes_skip`. -/
def skip (b : Bytes) (length : Nat) : Int × Bytes :=
  let (length, b) := b.clamp length b.readable
  (i32 length, { b with pos := u32 (b.pos + u32 length) })

/-- `ct_bytes_commit`. -/
def commit (b : Bytes) (length : Nat) : Int × Bytes :=
  let (length, b) := b.clamp length b.writable
  (i32 length, b.advance length)

/-- `ct_bytes_truncate`. -/
def truncate (b : Bytes) (newLen : Nat) : Bytes :=
  if b.len ≤ newLen then b
  else
    let len := u32 newLen
    { b with len, pos := if len < b.pos then len else b.pos }

/-- `ct_bytes_since`: the view, if there is one. -/
def since (b : Bytes) (start end_ : Nat) : Option Bytes :=
  let end_ := if end_ = 0 then b.len else end_
  if end_ < start ∨ b.cap < end_ then none
  else some
    { data := b.data + start
      cap := u32Sub b.cap (u32 start)
      len := u32 (usizeSub end_ start)
      pos := 0
      endian := b.endian
      hlswap := b.hlswap
      overflow := false }

/-- `ct_bytes_readable_since`. -/
def readableSince (b : Bytes) : Option Bytes := b.since b.pos b.len

/-- `ct_bytes_writable_since`. -/
def writableSince (b : Bytes) : Option Bytes := b.since b.pos b.cap

/-! ## Access to the memory -/

/-- The bytes at `data_[offset]` to `data_[offset + n - 1]`. -/
def load (b : Bytes) (m : Mem) (offset n : Nat) : Except Fault (List UInt8) :=
  if offset + n ≤ b.cap then Coter.load m (b.data + offset) n else .error .bounds

/-- Stores from `data_[offset]` on. -/
def store (b : Bytes) (m : Mem) (offset : Nat) (bytes : List UInt8) : Except Fault Mem :=
  if offset + bytes.length ≤ b.cap then Coter.store m (b.data + offset) bytes else .error .bounds

/-- `ct_bytes_compact`. -/
def compact (b : Bytes) (m : Mem) : Except Fault (Bytes × Mem) :=
  if b.pos = 0 then .ok (b, m)
  else if b.len ≤ b.pos then .ok (b.clear, m)
  else do
    let m ← b.store m 0 (← b.load m b.pos b.readable)
    .ok ({ b with len := u32 b.readable, pos := 0 }, m)

/-- `ct_bytes_find`. -/
def find (b : Bytes) (m : Mem) (bt : UInt8) (offset : Nat) : Except Fault Int :=
  if u32Sub b.len b.pos ≤ offset then .ok (-1)
  else do
    let start := usize (b.pos + offset)
    let bytes ← b.load m start (usizeSub (u32Sub b.len b.pos) offset)
    match bytes.findIdx? (fun x => x == bt) with
    | none => .ok (-1)
    | some i => .ok (i32 (i32 (start + i) - i32 start))

/-- `ct_bytes_fill`. -/
def fill (b : Bytes) (m : Mem) (bt : UInt8) (length : Nat) : Except Fault (Int × Bytes × Mem) :=
  let (length, b) := b.clamp length b.writable
  if length = 0 then .ok (0, b, m)
  else do
    let m ← b.store m b.pos (List.replicate length bt)
    .ok (i32 length, b.advance length, m)

/-- `ct_bytes_overfill`. -/
def overfill (b : Bytes) (m : Mem) (bt : UInt8) (length : Nat) :
    Except Fault (Int × Bytes × Mem) :=
  let (length, b) := b.clamp length b.cap
  if length = 0 then .ok (0, b, m)
  else do
    let m ← b.store m 0 (List.replicate length bt)
    .ok (i32 length, b, m)

/-! ## Blocks

The caller's block `p` is `none` for `NULL`, and else the bytes it points to. For
a block to be filled, `p` only says whether there is one. -/

/-- `ct_bytes_get_bytes`. -/
def getBytes (b : Bytes) (m : Mem) (offset : Nat) (p : Bool) (length : Nat) :
    Except Fault (Int × List UInt8) :=
  if length = 0 then .ok (0, [])
  else if b.len ≤ offset then .ok (0, [])
  else
    let length := if usizeSub b.len offset < length then usizeSub b.len offset else length
    if !p ∨ length = 0 then .ok (0, [])
    else do
      let bytes ← b.load m offset length
      .ok (i32 length, bytes)

/-- `ct_bytes_set_bytes`. -/
def setBytes (b : Bytes) (m : Mem) (offset : Nat) (p : Option (Nat → UInt8)) (length : Nat) :
    Except Fault (Int × Bytes × Mem) :=
  if b.len < offset ∨ usizeSub b.len offset < length then .ok (-1, b.fail, m)
  else
    match p with
    | none => .ok (0, b, m)
    | some p =>
      if length = 0 then .ok (0, b, m)
      else do
        let m ← b.store m offset ((List.range length).map p)
        .ok (0, b, m)

/-- `(int64_t)pos_ + offset` -/
def absPos (b : Bytes) (offset : Int) : Int := i64 (b.pos + offset)

/-- `(size_t)(len_ - abs_pos)` -/
def behind (b : Bytes) (abs : Int) : Nat := (i64 (b.len - abs) % 2 ^ 64).toNat

/-- `ct_bytes_peek_bytes`. -/
def peekBytes (b : Bytes) (m : Mem) (offset : Int) (p : Bool) (length : Nat) :
    Except Fault (Int × List UInt8) :=
  if length = 0 then .ok (0, [])
  else
    let abs := b.absPos offset
    if abs < 0 ∨ b.len ≤ abs then .ok (0, [])
    else
      let length := if b.behind abs < length then b.behind abs else length
      if !p ∨ length = 0 then .ok (0, [])
      else do
        let bytes ← b.load m abs.toNat length
        .ok (i32 length, bytes)

/-- `ct_bytes_poke_bytes`. -/
def pokeBytes (b : Bytes) (m : Mem) (offset : Int) (p : Option (Nat → UInt8)) (length : Nat) :
    Except Fault (Int × Bytes × Mem) :=
  let abs := b.absPos offset
  if abs < 0 ∨ b.len < abs ∨ b.behind abs < length then .ok (-1, b.fail, m)
  else
    match p with
    | none => .ok (0, b, m)
    | some p =>
      if length = 0 then .ok (0, b, m)
      else do
        let m ← b.store m abs.toNat ((List.range length).map p)
        .ok (0, b, m)

/-- `ct_bytes_take_bytes`. -/
def takeBytes (b : Bytes) (m : Mem) (p : Bool) (length : Nat) :
    Except Fault (Int × List UInt8 × Bytes) :=
  let (length, b) := b.clamp length b.readable
  if !p ∨ length = 0 then .ok (0, [], b)
  else do
    let bytes ← b.load m b.pos length
    .ok (i32 length, bytes, { b with pos := u32 (b.pos + u32 length) })

/-- `ct_bytes_put_bytes`. -/
def putBytes (b : Bytes) (m : Mem) (p : Option (Nat → UInt8)) (length : Nat) :
    Except Fault (Int × Bytes × Mem) :=
  let (length, b) := b.clamp length b.writable
  match p with
  | none => .ok (0, b, m)
  | some p =>
    if length = 0 then .ok (0, b, m)
    else do
      let m ← b.store m b.pos ((List.range length).map p)
      .ok (i32 length, b.advance length, m)

/-! ## Values

Each family has one body, for all widths. `host` is `CT_ENDIAN_SYSTEM`. -/

section

variable (host : Endian)

/-- What is done to a value before it is copied out of, or after it was copied
into, a variable. -/
def swap (b : Bytes) : (w : Width) → BitVec w.bits → BitVec w.bits
  | .u8, v => v
  | .u16, v => if b.endian ≠ host then Binary.bswap16 v else v
  | .u32, v =>
    if b.endian = host then
      if b.hlswap then Binary.bswap16_lanes32 v else v
    else
      if b.hlswap then Binary.reverse16_lanes32 v else Binary.bswap32 v
  | .u64, v =>
    if b.endian = host then
      if b.hlswap then Binary.bswap16_lanes64 v else v
    else
      if b.hlswap then Binary.reverse16_lanes64 v else Binary.bswap64 v

/-- The bytes of a variable that holds `v`. -/
def ofWord (w : Width) (v : BitVec w.bits) : List UInt8 := encode host w.bytes v.toNat

/-- The variable that the bytes were copied into. -/
def toWord (w : Width) (bytes : List UInt8) : BitVec w.bits := BitVec.ofNat _ (decode host bytes)

/-- `ct_bytes_put_*`. -/
def put (w : Width) (b : Bytes) (m : Mem) (v : BitVec w.bits) : Except Fault (Bytes × Mem) :=
  if b.writable < w.bytes then .ok (b.fail, m)
  else do
    let m ← b.store m b.pos (ofWord host w (b.swap host w v))
    .ok (b.advance w.bytes, m)

/-- `ct_bytes_take_*`. -/
def take (w : Width) (b : Bytes) (m : Mem) : Except Fault (BitVec w.bits × Bytes) :=
  if b.readable < w.bytes then .ok (0, b.fail)
  else do
    let bytes ← b.load m b.pos w.bytes
    .ok (b.swap host w (toWord host w bytes), { b with pos := u32 (b.pos + w.bytes) })

/-- The check of `ct_bytes_peek_*`. The one for a single byte is written without
the last subtraction. -/
def peekOutside (w : Width) (b : Bytes) (abs : Int) : Bool :=
  match w with
  | .u8 => abs < 0 || b.len ≤ abs
  | .u16 | .u32 | .u64 => abs < 0 || b.len < abs || i64 (b.len - abs) < w.bytes

/-- `ct_bytes_peek_*`. -/
def peek (w : Width) (b : Bytes) (m : Mem) (offset : Int) : Except Fault (BitVec w.bits) :=
  let abs := b.absPos offset
  if b.peekOutside w abs then .ok 0
  else do
    let bytes ← b.load m abs.toNat w.bytes
    .ok (b.swap host w (toWord host w bytes))

/-- `ct_bytes_get_*`. -/
def get (w : Width) (b : Bytes) (m : Mem) (offset : Nat) : Except Fault (BitVec w.bits) :=
  if b.len ≤ offset ∨ usizeSub b.len offset < w.bytes then .ok 0
  else do
    let bytes ← b.load m offset w.bytes
    .ok (b.swap host w (toWord host w bytes))

/-- `ct_bytes_set_*`. -/
def set (w : Width) (b : Bytes) (m : Mem) (offset : Nat) (v : BitVec w.bits) :
    Except Fault (Int × Bytes × Mem) :=
  if b.len ≤ offset ∨ usizeSub b.len offset < w.bytes then .ok (-1, b.fail, m)
  else do
    let m ← b.store m offset (ofWord host w (b.swap host w v))
    .ok (0, b, m)

end

/-- `ct_bytes_put_u8`, `ct_bytes_put_u16`, `ct_bytes_put_u32`, `ct_bytes_put_u64`. -/
abbrev put_u8 (host : Endian) := put host .u8
abbrev put_u16 (host : Endian) := put host .u16
abbrev put_u32 (host : Endian) := put host .u32
abbrev put_u64 (host : Endian) := put host .u64

/-- `ct_bytes_take_u8`, `ct_bytes_take_u16`, `ct_bytes_take_u32`, `ct_bytes_take_u64`. -/
abbrev take_u8 (host : Endian) := take host .u8
abbrev take_u16 (host : Endian) := take host .u16
abbrev take_u32 (host : Endian) := take host .u32
abbrev take_u64 (host : Endian) := take host .u64

/-- `ct_bytes_peek_u8`, `ct_bytes_peek_u16`, `ct_bytes_peek_u32`, `ct_bytes_peek_u64`. -/
abbrev peek_u8 (host : Endian) := peek host .u8
abbrev peek_u16 (host : Endian) := peek host .u16
abbrev peek_u32 (host : Endian) := peek host .u32
abbrev peek_u64 (host : Endian) := peek host .u64

/-- `ct_bytes_get_u8`, `ct_bytes_get_u16`, `ct_bytes_get_u32`, `ct_bytes_get_u64`. -/
abbrev get_u8 (host : Endian) := get host .u8
abbrev get_u16 (host : Endian) := get host .u16
abbrev get_u32 (host : Endian) := get host .u32
abbrev get_u64 (host : Endian) := get host .u64

/-- `ct_bytes_set_u8`, `ct_bytes_set_u16`, `ct_bytes_set_u32`, `ct_bytes_set_u64`. -/
abbrev set_u8 (host : Endian) := set host .u8
abbrev set_u16 (host : Endian) := set host .u16
abbrev set_u32 (host : Endian) := set host .u32
abbrev set_u64 (host : Endian) := set host .u64

end Bytes

end Coter
