import Coter.Core.Machine

/-!
# The message buffer

`ct_msgbuf`: a payload of fixed capacity behind a header, filled by `ct_msgbuf_write`
and, through `ct_snprintf_s`, by `ct_msgbuf_fmt`. What `vsnprintf` makes of a format
and its arguments comes with the call.
-/

namespace Coter

/-- Why a call on a message buffer has no defined result: a stray access, or an `int`
below its range. -/
inductive Undefined
  | access (fault : Fault)
  | overflow
  deriving DecidableEq, Repr

def access {α : Type} : Except Fault α → Except Undefined α
  | .ok x => .ok x
  | .error fault => .error (.access fault)

/-! ## Formatting -/

/-- What a format and its arguments come to: a text whose length is an `int`, or a
negative result and whatever was written before the failure. -/
inductive Formatted
  | text (chars : List UInt8) (short : chars.length < 2 ^ 31)
  | error (result : Int) (negative : result < 0) (written : List UInt8)

/-- `vsnprintf` into `n > 0` bytes at `buf`. -/
def vsnprintf (m : List UInt8) (buf n : Nat) : Formatted → Except Fault (Int × List UInt8)
  | .text chars _ => do
    let m ← store m buf (chars.take (n - 1) ++ [0])
    .ok (chars.length, m)
  | .error result _ written => do
    let m ← store m buf (written.take n)
    .ok (result, m)

/-- `ct_snprintf_s`, for a `buf` that is not null. -/
def snprintfS (m : List UInt8) (buf bufSize : Nat) (format : Option Formatted) :
    Except Undefined (Int × List UInt8) :=
  match format with
  | none => .ok (-1, m)
  | some format =>
    if bufSize = 0 then .ok (-1, m)
    else do
      let (result, m) ← access (vsnprintf m buf bufSize format)
      let m ← access (store m (buf + (bufSize - 1)) [0])
      if result < 0 then .ok (i32 (bufSize - 1 : Nat), m)
      else if i32 bufSize ≤ result then
        -- `(int)buf_size - 1`
        if i32 bufSize = -2147483648 then .error .overflow else .ok (i32 bufSize - 1, m)
      else .ok (result, m)

/-! ## The buffer -/

structure MsgBuf where
  buffer : List UInt8
  writePos : Nat
  cap : Nat

namespace MsgBuf

/-- `sizeof(ct_msgbuf_t)`, and where its payload begins. -/
def sizeof : Nat := 40

def header : Nat := 32

/-- `ct_msgbuf_create`, where `malloc` grants the bytes `fresh` or fails. -/
def create (fresh : Option (Nat → UInt8)) (capacity : Nat) : Except Fault (Option MsgBuf) :=
  let capacity := if capacity = 0 then 1024 else usize capacity
  let bytes := usize (sizeof - 1 + capacity)
  match fresh with
  | none => .ok none
  | some fresh =>
    if bytes < header then .error .bounds
    else
      let buffer := (List.range (bytes - header)).map fresh
      .ok (some { buffer, writePos := 0, cap := capacity })

/-- `ct_msgbuf_size`. -/
def size (b : MsgBuf) : Nat := b.writePos

/-- `ct_msgbuf_available`. -/
def available (b : MsgBuf) : Nat := usizeSub b.cap b.writePos

/-- `ct_msgbuf_clear`. -/
def clear (b : MsgBuf) : MsgBuf := { b with writePos := 0 }

/-- `ct_msgbuf_write` of the bytes `data` points to. -/
def write (b : MsgBuf) (data : Option (List UInt8)) : Except Fault (Nat × MsgBuf) :=
  match data with
  | none => .ok (0, b)
  | some data =>
    if data.length = 0 then .ok (0, b)
    else
      let length := if data.length > b.available then b.available else data.length
      if length = 0 then .ok (0, b)
      else do
        let piece ← load data 0 length
        let buffer ← store b.buffer b.writePos piece
        .ok (length, { b with buffer, writePos := b.writePos + length })

/-- `ct_msgbuf_fmt`. -/
def fmt (b : MsgBuf) (format : Option Formatted) : Except Undefined MsgBuf :=
  if 0 < b.available then do
    let (size, buffer) ← snprintfS b.buffer b.writePos b.available format
    if 0 < size then .ok { b with buffer, writePos := b.writePos + size.toNat }
    else .ok { b with buffer }
  else .ok b

/-! ## Its calls -/

inductive Act
  | write (data : Option (List UInt8))
  | fmt (format : Option Formatted)
  | clear

inductive Answer
  | written (n : Nat)
  | done
  deriving DecidableEq, Repr

def act (b : MsgBuf) : Act → Except Undefined (Answer × MsgBuf)
  | .write data => do
    let (n, b) ← access (b.write data)
    .ok (.written n, b)
  | .fmt format => do
    let b ← b.fmt format
    .ok (.done, b)
  | .clear => .ok (.done, b.clear)

end MsgBuf

end Coter
