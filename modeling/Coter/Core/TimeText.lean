import Coter.Bytes.MsgBuf
import Coter.Core.Time
import Coter.Lib.Decimal

/-!
# The texts of dates and durations

`ct_datetime_fmt`, `ct_datetime_fmt_iso` and `ct_duration_fmt`. A result is the buffer, or
`NULL`; the buffer of the caller is the list of its bytes, and may be longer than `size`.
-/

namespace Coter.Time

open Lib.Decimal

/-- `"%0wd"` -/
def formatInt (w : Nat) (n : Int) : List UInt8 :=
  if n < 0 then '-'.toUInt8 :: padded (w - 1) n.natAbs else padded w n.natAbs

/-- `DATETIME_FMT` -/
def DATETIME_FMT (dt : DateTime) : List UInt8 :=
  formatInt 4 dt.year ++ ['-'.toUInt8] ++ formatInt 2 dt.month ++ ['-'.toUInt8] ++
    formatInt 2 dt.day ++ [' '.toUInt8] ++ formatInt 2 dt.hour ++ [':'.toUInt8] ++
    formatInt 2 dt.min ++ [':'.toUInt8] ++ formatInt 2 dt.sec

/-- `DATETIME_FMT_ISO` -/
def DATETIME_FMT_ISO (dt : DateTime) : List UInt8 :=
  formatInt 4 dt.year ++ ['-'.toUInt8] ++ formatInt 2 dt.month ++ ['-'.toUInt8] ++
    formatInt 2 dt.day ++ ['T'.toUInt8] ++ formatInt 2 dt.hour ++ [':'.toUInt8] ++
    formatInt 2 dt.min ++ [':'.toUInt8] ++ formatInt 2 dt.sec ++ ['.'.toUInt8] ++
    formatInt 3 dt.ms

/-- `DURATION_FMT` -/
def DURATION_FMT (h m s : Int) : List UInt8 :=
  formatInt 2 h ++ [':'.toUInt8] ++ formatInt 2 m ++ [':'.toUInt8] ++ formatInt 2 s

/-- What `vsnprintf` makes of a text: it fails with one that an `int` cannot count. -/
def formatted (chars : List UInt8) : Formatted :=
  if short : chars.length < 2 ^ 31 then .text chars short else .error (-1) (by decide) []

/-- `ct_snprintf` -/
def snprintf (m : List UInt8) (size : Nat) (chars : List UInt8) : Except Fault (Int × List UInt8) :=
  vsnprintf m 0 size (formatted chars)

/-- What the three functions have in common: the text is printed if the arguments are good and
the buffer holds it. -/
def fmt (good : Bool) (chars : List UInt8) (buf : Option (List UInt8)) (size : Nat) :
    Except Fault (Bool × Option (List UInt8)) :=
  match buf with
  | none => .ok (false, none)
  | some m => do
    let m ← if size > 0 then store m 0 [0] else .ok m
    if !good || size == 0 then .ok (false, some m)
    else
      let (n, m) ← snprintf m size chars
      if n < 0 || n.toNat ≥ size then
        let m ← store m 0 [0]
        .ok (false, some m)
      else .ok (true, some m)

/-- `ct_datetime_fmt` -/
def datetime_fmt (dt : Option DateTime) (buf : Option (List UInt8)) (size : Nat) :
    Except Fault (Bool × Option (List UInt8)) :=
  match dt with
  | none => fmt false [] buf size
  | some dt =>
    fmt (valid_date dt.year dt.month dt.day && valid_time dt.hour dt.min dt.sec dt.ms)
      (DATETIME_FMT dt) buf size

/-- `ct_datetime_fmt_iso` -/
def datetime_fmt_iso (dt : Option DateTime) (buf : Option (List UInt8)) (size : Nat) :
    Except Fault (Bool × Option (List UInt8)) :=
  match dt with
  | none => fmt false [] buf size
  | some dt =>
    fmt (valid_date dt.year dt.month dt.day && valid_time dt.hour dt.min dt.sec dt.ms)
      (DATETIME_FMT_ISO dt) buf size

/-- `ct_duration_fmt` -/
def duration_fmt (sec : Int) (buf : Option (List UInt8)) (size : Nat) :
    Except Fault (Bool × Option (List UInt8)) :=
  let m := sec.tdiv 60
  let s := sec.tmod 60
  let h := m.tdiv 60
  fmt (sec ≥ 0) (DURATION_FMT h (m.tmod 60) s) buf size

/-- `CT_DATETIME_FMT_BUFLEN`, `CT_DATETIME_FMT_ISO_BUFLEN`, `CT_DURATION_FMT_BUFLEN` -/
def DATETIME_FMT_BUFLEN : Nat := 20

def DATETIME_FMT_ISO_BUFLEN : Nat := 24

def DURATION_FMT_BUFLEN : Nat := 13

end Coter.Time
