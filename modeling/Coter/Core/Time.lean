import Coter.Core.Machine

/-!
# Dates

The dates of `coter/core/time.h`. Division truncates towards zero. A result of 64 bits is
an `Int`: the numbers of days of the dates that the functions are called with, and the sums
of two of them, are far below `2 ^ 63`.
-/

namespace Coter.Time

/-- `ct_datetime_t`. -/
structure DateTime where
  year : Int
  month : Int
  day : Int
  hour : Int
  min : Int
  sec : Int
  ms : Int
deriving DecidableEq, Repr

/-- `s_days`. -/
def s_days : List Int := [31, 28, 31, 30, 31, 30, 31, 31, 30, 31, 30, 31]

/-- `datetime_leap_year`. -/
def leap_year (year : Int) : Bool :=
  (year.tmod 4 == 0 && year.tmod 100 != 0) || year.tmod 400 == 0

/-- `ct_datetime_days_in_month`. -/
def days_in_month (year month : Int) : Int :=
  if month < 1 || month > 12 then 0
  else
    let days := s_days.getD (month - 1).toNat 0
    if month == 2 && leap_year year then days + 1 else days

/-- `datetime_days_from_civil`. -/
def days_from_civil (year month day : Int) : Int :=
  let year := year - if month ≤ 2 then 1 else 0
  let era := (if year ≥ 0 then year else year - 399).tdiv 400
  let yoe := year - era * 400
  let doy := (153 * (month + if month > 2 then -3 else 9) + 2).tdiv 5 + day - 1
  let doe := yoe * 365 + yoe.tdiv 4 - yoe.tdiv 100 + doy
  era * 146097 + doe - 719468

/-- `datetime_civil_from_days`: the year, the month and the day. -/
def civil_from_days (z : Int) : Int × Int × Int :=
  let z := z + 719468
  let era := (if z ≥ 0 then z else z - 146096).tdiv 146097
  let doe := z - era * 146097
  let yoe := (doe - doe.tdiv 1460 + doe.tdiv 36524 - doe.tdiv 146096).tdiv 365
  let yy := yoe + era * 400
  let doy := doe - (365 * yoe + yoe.tdiv 4 - yoe.tdiv 100)
  let mp := (5 * doy + 2).tdiv 153
  let dd := doy - (153 * mp + 2).tdiv 5 + 1
  let mm := mp + if mp < 10 then 3 else -9
  (i32 (yy + if mm ≤ 2 then 1 else 0), i32 mm, i32 dd)

/-- `datetime_valid_date`. -/
def valid_date (year month day : Int) : Bool :=
  year ≥ 1 && year ≤ 9999 && month ≥ 1 && month ≤ 12 && day ≥ 1 && day ≤ days_in_month year month

/-- `datetime_valid_time`: a leap second is one. -/
def valid_time (hour min sec ms : Int) : Bool :=
  hour ≥ 0 && hour ≤ 23 && min ≥ 0 && min ≤ 59 && sec ≥ 0 && sec ≤ 60 && ms ≥ 0 && ms ≤ 999

/-- `ct_datetime_add_days`, with what it leaves in `dt`. -/
def add_days : Option DateTime → Int → Bool × Option DateTime
  | none, _ => (false, none)
  | some dt, days =>
    if !valid_date dt.year dt.month dt.day || !valid_time dt.hour dt.min dt.sec dt.ms then
      (false, some dt)
    else
      let shifted := days_from_civil dt.year dt.month dt.day + days
      let (year, month, day) := civil_from_days shifted
      if year < 1 || year > 9999 then (false, some dt)
      else (true, some { dt with year, month, day })

end Coter.Time
