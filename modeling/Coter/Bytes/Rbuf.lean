import Coter.Core.Machine

/-!
# The ring buffer

`ct_rbuf`: a byte queue in caller-provided memory. Bytes are copied in and out,
or reached in place through a pointer to the first contiguous span.

A pointer into the storage is the offset it points to, a buffer of the caller is
the list of its bytes, and `none` is `NULL`.
-/

namespace Coter

open Lib.Blocks

/-- `ct_rbuf_t` with the storage `data_` points to. -/
structure Rbuf where
  data : List UInt8
  cap : Nat
  head : Nat
  tail : Nat
  len : Nat
  deriving DecidableEq, Repr

namespace Rbuf

/-- `ct_rbuf_init` over the whole of `buffer`. -/
def init (buffer : List UInt8) : Rbuf where
  data := buffer
  cap := buffer.length
  head := 0
  tail := 0
  len := 0

/-- `ct_rbuf_clear`. -/
def clear (r : Rbuf) : Rbuf := { r with head := 0, tail := 0, len := 0 }

/-- The request of a write or commit, cut down to the free space. -/
def clampFree (r : Rbuf) (n : Nat) : Nat :=
  if r.cap < usize (n + r.len) then usizeSub r.cap r.len else n

/-- The request of a read or remove, cut down to the stored bytes. -/
def clampUsed (r : Rbuf) (n : Nat) : Nat := if r.len < n then r.len else n

/-- The copying part of `ct_rbuf_write`: the storage, and the offset behind the
last byte copied. -/
def copyIn (r : Rbuf) (src : List UInt8) (n : Nat) : Except Fault (List UInt8 × Nat) :=
  if usize (r.tail + n) ≤ r.cap then do
    let data ← store r.data r.tail (← load src 0 n)
    .ok (data, usize (r.tail + n))
  else do
    let first := usizeSub r.cap r.tail
    let rest := usizeSub n first
    let data ← store r.data r.tail (← load src 0 first)
    let data ← store data 0 (← load src first rest)
    .ok (data, rest)

/-- `ct_rbuf_write` of `n` bytes at `src`. -/
def write (r : Rbuf) (src : Option (List UInt8)) (n : Nat) : Except Fault (Nat × Rbuf) :=
  match src with
  | none => .ok (0, r)
  | some src =>
    let n := r.clampFree n
    if n = 0 then .ok (0, r)
    else do
      let (data, tail) ← r.copyIn src n
      .ok (n, { r with data, len := usize (r.len + n), tail := if tail = r.cap then 0 else tail })

/-- The copying part of `ct_rbuf_read` and `ct_rbuf_peek`: what `dst` holds after,
and the offset behind the last byte copied. -/
def copyOut (r : Rbuf) (dst : List UInt8) (n : Nat) : Except Fault (List UInt8 × Nat) :=
  if usize (r.head + n) ≤ r.cap then do
    let dst ← store dst 0 (← load r.data r.head n)
    .ok (dst, usize (r.head + n))
  else do
    let first := usizeSub r.cap r.head
    let rest := usizeSub n first
    let dst ← store dst 0 (← load r.data r.head first)
    let dst ← store dst first (← load r.data 0 rest)
    .ok (dst, rest)

/-- `ct_rbuf_read` of up to `n` bytes into `dst`. -/
def read (r : Rbuf) (dst : Option (List UInt8)) (n : Nat) :
    Except Fault (Nat × Option (List UInt8) × Rbuf) :=
  match dst with
  | none => .ok (0, none, r)
  | some dst =>
    let n := r.clampUsed n
    if n = 0 then .ok (0, some dst, r)
    else do
      let (dst, head) ← r.copyOut dst n
      .ok (n, some dst,
        { r with len := usizeSub r.len n, head := if head = r.cap then 0 else head })

/-- `ct_rbuf_peek` of up to `n` bytes into `dst`. -/
def peek (r : Rbuf) (dst : Option (List UInt8)) (n : Nat) :
    Except Fault (Nat × Option (List UInt8)) :=
  match dst with
  | none => .ok (0, none)
  | some dst =>
    let n := r.clampUsed n
    if n = 0 then .ok (0, some dst)
    else do
      let (dst, _) ← r.copyOut dst n
      .ok (n, some dst)

/-- `ct_rbuf_read_ptr`: the pointer and `*chunk_len`. -/
def readPtr (r : Rbuf) : Option Nat × Nat :=
  if r.len = 0 then (none, 0)
  else
    let untilEnd := usizeSub r.cap r.head
    (some r.head, if r.len ≤ untilEnd then r.len else untilEnd)

/-- `ct_rbuf_write_ptr`: the pointer and `*chunk_len`. -/
def writePtr (r : Rbuf) : Option Nat × Nat :=
  let writable := usizeSub r.cap r.len
  if writable = 0 then (none, 0)
  else
    let untilEnd := usizeSub r.cap r.tail
    (some r.tail, if writable ≤ untilEnd then writable else untilEnd)

/-- `ct_rbuf_remove`. -/
def remove (r : Rbuf) (n : Nat) : Nat × Rbuf :=
  let n := r.clampUsed n
  if 0 < n then
    let head := usize (r.head + n)
    (n, { r with
      head := if r.cap ≤ head then usizeSub head r.cap else head
      len := usizeSub r.len n })
  else (n, r)

/-- `ct_rbuf_commit`. -/
def commit (r : Rbuf) (n : Nat) : Nat × Rbuf :=
  let n := r.clampFree n
  if 0 < n then
    let tail := usize (r.tail + n)
    (n, { r with
      tail := if r.cap ≤ tail then usizeSub tail r.cap else tail
      len := usize (r.len + n) })
  else (n, r)

/-- The client of `ct_rbuf_write_ptr` stores through the pointer. -/
def fill (r : Rbuf) (ptr : Option Nat) (bytes : List UInt8) : Except Fault Rbuf :=
  match ptr with
  | none => if bytes = [] then .ok r else .error .null
  | some o => do
    let data ← store r.data o bytes
    .ok { r with data }

/-- A client that takes all bytes out through `ct_rbuf_read_ptr` and
`ct_rbuf_remove`, in at most `fuel` turns. -/
def drain : Nat → Rbuf → Except Fault (List UInt8 × Rbuf)
  | fuel, r =>
    match r.readPtr with
    | (none, _) => .ok ([], r)
    | (some o, chunk) =>
      match fuel with
      | 0 => .error .fuel
      | fuel + 1 => do
        let bytes ← load r.data o chunk
        let (rest, r) ← drain fuel (r.remove chunk).2
        .ok (bytes ++ rest, r)

end Rbuf

end Coter
