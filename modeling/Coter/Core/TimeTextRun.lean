import Coter.Core.TimeText
import Coter.Core.TimeRun

/-!
# Printing dates and durations

* `fmt_spec`: what is in the buffer after a call;
* `number_lt_iff`: the numbers of days are in the order of the dates;
* `datetime_text`: the texts of dates are read back, and are in the order of time;
* `duration_text`: durations always fit, and are read back.
-/

namespace Coter.Time

open Lib.Blocks Lib.Calendar Lib.Decimal

variable {m m' chars : List UInt8} {size : Nat}

/-! ## The buffer -/

theorem store_front (h : chars.length ≤ m.length) :
    store m 0 chars = .ok (chars ++ m.drop chars.length) := by
  rw [store_ok (by omega), write_start]

theorem drop_front {n : Nat} (h : chars.length ≤ n) :
    (chars ++ m.drop chars.length).drop n = m.drop n := by
  rw [List.drop_append, List.drop_of_length_le h, List.nil_append, List.drop_drop]
  congr 1
  omega

theorem length_front (h : chars.length ≤ m.length) :
    (chars ++ m.drop chars.length).length = m.length := by
  rw [List.length_append, List.length_drop]
  omega

/-- A call that does not print leaves the empty string, and nothing behind the room has
changed. -/
structure Refused (m m' : List UInt8) (size : Nat) : Prop where
  empty : 0 < size → m'.head? = some 0
  behind : m'.drop size = m.drop size

/-- `buf[0] = '\0'` -/
theorem clear_spec (room : size ≤ m'.length) (behind : m'.drop size = m.drop size)
    (pos : 0 < size) :
    store m' 0 [0] = .ok (0 :: m'.drop 1) ∧ Refused m (0 :: m'.drop 1) size :=
  ⟨store_front (by simpa using by omega), fun _ => rfl,
    (drop_front (show [(0 : UInt8)].length ≤ size from pos)).trans behind⟩

/-- What `ct_snprintf` returns, and what it leaves in a buffer with room. -/
theorem snprintf_spec (chars : List UInt8) (room : size ≤ m.length) (pos : 0 < size) :
    ∃ n m', snprintf m size chars = .ok (n, m') ∧ m'.length = m.length ∧
      m'.drop size = m.drop size ∧
      ((n < 0 ∨ size ≤ n.toNat) ↔ ¬(chars.length < size ∧ chars.length < 2 ^ 31)) ∧
      (chars.length < size → chars.length < 2 ^ 31 →
        m' = chars ++ 0 :: m.drop (chars.length + 1)) := by
  unfold snprintf formatted
  split
  · next short =>
    have whole (fits : chars.length < size) : chars.take (size - 1) = chars :=
      List.take_of_length_le (by omega)
    generalize hout : chars.take (size - 1) ++ [0] = out
    have cut : out.length ≤ size := by
      rw [← hout, List.length_append, List.length_take, List.length_singleton]
      omega
    refine ⟨chars.length, out ++ m.drop out.length, ?_, length_front (cut.trans room),
      drop_front cut, by omega, fun fits _ => ?_⟩
    · rw [vsnprintf, hout, store_front (cut.trans room)]
      rfl
    · rw [← hout, whole fits, List.append_assoc, List.length_append]
      rfl
  · next long =>
    refine ⟨-1, m, ?_, rfl, rfl, by omega, fun _ short => absurd short long⟩
    rw [vsnprintf, List.take_nil, store_front (Nat.zero_le _)]
    rfl

/-- What is in the buffer after a call. -/
theorem fmt_spec (good : Bool) (chars : List UInt8) (room : size ≤ m.length) :
    if good = true ∧ chars.length < size ∧ chars.length < 2 ^ 31 then
      fmt good chars (some m) size = .ok (true, some (chars ++ 0 :: m.drop (chars.length + 1)))
    else ∃ m', fmt good chars (some m) size = .ok (false, some m') ∧ Refused m m' size := by
  by_cases hsize : size = 0
  · subst hsize
    rw [if_neg (by omega)]
    exact ⟨m, by simp [fmt], fun none => absurd none (Nat.lt_irrefl 0), rfl⟩
  have pos : 0 < size := Nat.pos_of_ne_zero hsize
  obtain ⟨first, cleared⟩ := clear_spec room rfl pos
  rw [fmt, if_pos pos, first]
  cases good with
  | false =>
    rw [if_neg (by simp)]
    exact ⟨_, rfl, cleared⟩
  | true =>
    have room₁ : size ≤ (0 :: m.drop 1).length := by
      rw [List.length_cons, List.length_drop]
      omega
    obtain ⟨n, m₂, printed, length₂, behind, fails, fits⟩ := snprintf_spec chars room₁ pos
    have refuses : (decide (n < 0) || decide (n.toNat ≥ size)) = true ↔
        ¬(chars.length < size ∧ chars.length < 2 ^ 31) := by
      rw [Bool.or_eq_true, decide_eq_true_eq, decide_eq_true_eq]
      exact fails
    simp only [Bool.not_true, Bool.false_or, beq_iff_eq, hsize, if_false, true_and, printed, ok_bind]
    by_cases enough : chars.length < size ∧ chars.length < 2 ^ 31
    · rw [if_pos enough, if_neg (by rw [refuses]; exact not_not_intro enough),
        fits enough.1 enough.2, List.drop_succ_cons, List.drop_drop, Nat.add_comm 1]
    · obtain ⟨last, refused⟩ := clear_spec (room₁.trans length₂.ge)
        (behind.trans cleared.behind) pos
      rw [if_neg enough, if_pos (refuses.2 enough), last]
      exact ⟨_, rfl, refused⟩

/-! ## The order of days -/

/-- The day before the first of a month, in years that begin with March. -/
def before_month (year mp : Int) : Int := days_before_year year + days_before_month mp - 719469

/-- The year, beginning with March, that a date lies in. -/
def march_year (d : Date gregorian) : Int := d.year - if d.month ≤ 2 then 1 else 0

theorem number_eq (d : Date gregorian) :
    number d = before_month (march_year d) (place d.month) + d.day := by
  unfold number before_month march_year
  rw [days_from_civil_eq _ d.month_pos]
  omega

/-- A month ends where the next one begins. -/
theorem month_ends (d : Date gregorian) :
    place d.month < 11 ∧ number d ≤ before_month (march_year d) (place d.month + 1) ∨
      place d.month = 11 ∧ number d ≤ before_month (march_year d + 1) 0 := by
  have last : d.day ≤ days_in_month d.year d.month := d.day_le
  have january := d.month_pos
  have december := d.month_le
  rw [number_eq]
  unfold before_month
  by_cases two : d.month = 2
  · have year : march_year d + 1 = d.year := by
      rw [march_year, two]
      omega
    have longer := days_before_year_succ (march_year d)
    rw [year] at longer ⊢
    rw [two, february] at last
    rw [two]
    refine .inr ⟨rfl, ?_⟩
    have months : days_before_month (place 2) = 337 ∧ days_before_month 0 = 0 := by decide
    omega
  · rw [other_month _ january december two] at last
    refine .inl ⟨?_, by omega⟩
    unfold place
    split <;> omega

theorem days_before_year_mono {year year' : Int} (h : year ≤ year') :
    days_before_year year ≤ days_before_year year' := by
  unfold days_before_year
  omega

theorem days_before_month_mono {mp mp' : Int} (h : mp ≤ mp') :
    days_before_month mp ≤ days_before_month mp' := by
  unfold days_before_month
  omega

/-- A later month begins after the days of an earlier one. -/
theorem number_lt_of_month {d d' : Date gregorian} (h : march_year d < march_year d' ∨
    march_year d = march_year d' ∧ place d.month < place d'.month) : number d < number d' := by
  have placed := place_range d
  have placed' := place_range d'
  have day := d'.day_pos
  have ends := month_ends d
  rw [number_eq d']
  unfold before_month at ends ⊢
  rcases h with h | ⟨same, h⟩
  · have years := days_before_year_mono (Int.add_one_le_of_lt h)
    have starts := days_before_month_mono placed'.1
    have longer := days_before_year_succ (march_year d)
    rcases ends with ⟨inside, ends⟩ | ⟨-, ends⟩
    · have month := days_before_month_mono (Int.add_one_le_of_lt inside)
      have bounds : days_before_month 11 = 337 ∧ days_before_month 0 = 0 := by decide
      split at longer <;> omega
    · omega
  · have months := days_before_month_mono (Int.add_one_le_of_lt h)
    rw [same] at ends
    omega

/-- **The numbers of days are in the order of the dates.** -/
theorem number_lt_of_lt {d d' : Date gregorian} (h : d.year < d'.year ∨ d.year = d'.year ∧
    (d.month < d'.month ∨ d.month = d'.month ∧ d.day < d'.day)) : number d < number d' := by
  have january := d.month_pos
  have december := d.month_le
  have january' := d'.month_pos
  have december' := d'.month_le
  by_cases same : march_year d = march_year d' ∧ place d.month = place d'.month
  · rw [number_eq, number_eq, same.1, same.2]
    unfold march_year place at same
    split at same <;> omega
  · refine number_lt_of_month ?_
    unfold march_year place at same ⊢
    split at same <;> split at same <;> omega

theorem number_lt_iff (d d' : Date gregorian) : number d < number d' ↔
    d.year < d'.year ∨ d.year = d'.year ∧
      (d.month < d'.month ∨ d.month = d'.month ∧ d.day < d'.day) := by
  refine ⟨fun h => ?_, number_lt_of_lt⟩
  by_contra later
  have back : ¬(d'.year < d.year ∨ d'.year = d.year ∧
      (d'.month < d.month ∨ d'.month = d.month ∧ d'.day < d.day)) := fun h' =>
    absurd (number_lt_of_lt h') (Int.not_lt.2 (Int.le_of_lt h))
  have same : d = d' := by
    ext <;> omega
  rw [same] at h
  exact Int.lt_irrefl _ h

/-! ## The texts -/

/-- `"YYYY-MM-DD HH:MM:SS"` -/
def fmt_shape : List (Nat × List UInt8) :=
  [(4, ['-'.toUInt8]), (2, ['-'.toUInt8]), (2, [' '.toUInt8]), (2, [':'.toUInt8]),
    (2, [':'.toUInt8]), (2, [])]

/-- `"YYYY-MM-DDTHH:MM:SS.sss"` -/
def iso_shape : List (Nat × List UInt8) :=
  [(4, ['-'.toUInt8]), (2, ['-'.toUInt8]), (2, ['T'.toUInt8]), (2, [':'.toUInt8]),
    (2, [':'.toUInt8]), (2, ['.'.toUInt8]), (3, [])]

namespace DateTime

/-- What the text shows. -/
def fields (dt : DateTime) : List Nat :=
  [dt.year.toNat, dt.month.toNat, dt.day.toNat, dt.hour.toNat, dt.min.toNat, dt.sec.toNat]

/-- What the ISO text shows. -/
def iso_fields (dt : DateTime) : List Nat := dt.fields ++ [dt.ms.toNat]

/-- The number of the day, and the time of the day. -/
def moment (dt : DateTime) : List Int :=
  [days_from_civil dt.year dt.month dt.day, dt.hour, dt.min, dt.sec]

/-- To the millisecond. -/
def iso_moment (dt : DateTime) : List Int := dt.moment ++ [dt.ms]

/-- The ranges of the fields. -/
structure Ranges (dt : DateTime) : Prop where
  year : 1 ≤ dt.year ∧ dt.year ≤ 9999
  month : 1 ≤ dt.month ∧ dt.month ≤ 12
  day : 1 ≤ dt.day ∧ dt.day ≤ 31
  hour : 0 ≤ dt.hour ∧ dt.hour ≤ 23
  min : 0 ≤ dt.min ∧ dt.min ≤ 59
  sec : 0 ≤ dt.sec ∧ dt.sec ≤ 60
  ms : 0 ≤ dt.ms ∧ dt.ms ≤ 999

theorem Valid.ranges {dt : DateTime} (valid : dt.Valid) : dt.Ranges := by
  obtain ⟨year, first, last, day, -⟩ := (valid_date_iff ..).1 valid.date
  have time : (0 ≤ dt.hour ∧ dt.hour ≤ 23) ∧ (0 ≤ dt.min ∧ dt.min ≤ 59) ∧
      (0 ≤ dt.sec ∧ dt.sec ≤ 60) ∧ 0 ≤ dt.ms ∧ dt.ms ≤ 999 := by
    simpa [valid_time, and_assoc] using valid.time
  exact ⟨year, ⟨first, last⟩, ⟨day, day_short (dateOf valid.date)⟩, time.1, time.2.1, time.2.2.1,
    time.2.2.2⟩

end DateTime

variable {dt dt' : DateTime}

theorem formatInt_eq {w : Nat} {n : Int} (hw : 0 < w) (low : 0 ≤ n) (high : n.toNat < 10 ^ w) :
    formatInt w n = fixed w n.toNat := by
  rw [formatInt, if_neg (Int.not_lt.2 low)]
  have abs : n.natAbs = n.toNat := by omega
  rw [abs, padded_of_lt hw high]

/-- Every field has as many digits as its format. -/
theorem DateTime.Ranges.digits (r : dt.Ranges) : dt.year.toNat < 10 ^ 4 ∧ dt.month.toNat < 10 ^ 2 ∧
    dt.day.toNat < 10 ^ 2 ∧ dt.hour.toNat < 10 ^ 2 ∧ dt.min.toNat < 10 ^ 2 ∧
    dt.sec.toNat < 10 ^ 2 ∧ dt.ms.toNat < 10 ^ 3 := by
  obtain ⟨year, month, day, hour, min, sec, ms⟩ := r
  omega

theorem fmt_fits (r : dt.Ranges) : Fits fmt_shape dt.fields := by
  obtain ⟨year, month, day, hour, min, sec, -⟩ := r.digits
  exact ⟨_, _, rfl, year, _, _, rfl, month, _, _, rfl, day, _, _, rfl, hour, _, _, rfl, min,
    _, _, rfl, sec, rfl⟩

theorem iso_fits (r : dt.Ranges) : Fits iso_shape dt.iso_fields := by
  obtain ⟨year, month, day, hour, min, sec, ms⟩ := r.digits
  exact ⟨_, _, rfl, year, _, _, rfl, month, _, _, rfl, day, _, _, rfl, hour, _, _, rfl, min,
    _, _, rfl, sec, _, _, rfl, ms, rfl⟩

theorem fmt_text (r : dt.Ranges) : DATETIME_FMT dt = record fmt_shape dt.fields := by
  obtain ⟨year, month, day, hour, min, sec, -⟩ := r.digits
  rw [DATETIME_FMT, formatInt_eq (by decide) (by have := r.year; omega) year,
    formatInt_eq (by decide) (by have := r.month; omega) month,
    formatInt_eq (by decide) (by have := r.day; omega) day,
    formatInt_eq (by decide) r.hour.1 hour, formatInt_eq (by decide) r.min.1 min,
    formatInt_eq (by decide) r.sec.1 sec]
  simp only [record, fmt_shape, DateTime.fields, List.append_assoc, List.append_nil]

/-- The ISO text differs in the separator of the time, and goes on. -/
theorem iso_text (r : dt.Ranges) : DATETIME_FMT_ISO dt = record iso_shape dt.iso_fields := by
  obtain ⟨year, month, day, hour, min, sec, ms⟩ := r.digits
  rw [DATETIME_FMT_ISO, formatInt_eq (by decide) (by have := r.year; omega) year,
    formatInt_eq (by decide) (by have := r.month; omega) month,
    formatInt_eq (by decide) (by have := r.day; omega) day,
    formatInt_eq (by decide) r.hour.1 hour, formatInt_eq (by decide) r.min.1 min,
    formatInt_eq (by decide) r.sec.1 sec, formatInt_eq (by decide) r.ms.1 ms]
  simp only [record, iso_shape, DateTime.iso_fields, DateTime.fields, List.append_assoc,
    List.append_nil, List.cons_append, List.nil_append]

theorem toNat_lt_iff {a b : Int} (h : 0 ≤ a) : a.toNat < b.toNat ↔ a < b := by omega

theorem toNat_eq_iff {a b : Int} (h : 0 ≤ a) (h' : 0 ≤ b) : a.toNat = b.toNat ↔ a = b := by omega

theorem moment_day (valid : dt.Valid) (valid' : dt'.Valid) :
    (days_from_civil dt.year dt.month dt.day < days_from_civil dt'.year dt'.month dt'.day ↔
      dt.year < dt'.year ∨ dt.year = dt'.year ∧
        (dt.month < dt'.month ∨ dt.month = dt'.month ∧ dt.day < dt'.day)) ∧
    (days_from_civil dt.year dt.month dt.day = days_from_civil dt'.year dt'.month dt'.day ↔
      dt.year = dt'.year ∧ dt.month = dt'.month ∧ dt.day = dt'.day) := by
  have lt := number_lt_iff (dateOf valid.date) (dateOf valid'.date)
  have gt := number_lt_iff (dateOf valid'.date) (dateOf valid.date)
  simp only [number, dateOf] at lt gt
  refine ⟨lt, ?_, ?_⟩
  · intro same
    rw [same] at lt gt
    have none := Int.lt_irrefl (days_from_civil dt'.year dt'.month dt'.day)
    have lt := lt.not.1 none
    have gt := gt.not.1 none
    omega
  · rintro ⟨year, month, day⟩
    rw [year, month, day]

theorem map_toNat_lt {xs ys : List Int} (hx : ∀ x ∈ xs, 0 ≤ x) (hy : ∀ y ∈ ys, 0 ≤ y) :
    xs.map Int.toNat < ys.map Int.toNat ↔ xs < ys := by
  induction xs generalizing ys with
  | nil => cases ys <;> simp
  | cons x xs ih =>
    cases ys with
    | nil => simp
    | cons y ys =>
      rw [List.forall_mem_cons] at hx hy
      simp only [List.map_cons, List.cons_lt_cons_iff, ih hx.2 hy.2, toNat_lt_iff hx.1,
        toNat_eq_iff hx.1 hy.1]

theorem lexicographic {a b c x y z rest : Prop} :
    (a ∨ x ∧ (b ∨ y ∧ (c ∨ z ∧ rest))) ↔ ((a ∨ x ∧ (b ∨ y ∧ c)) ∨ (x ∧ y ∧ z) ∧ rest) := by
  tauto

/-- Dates are in the order of their days, and then of the time of the day. -/
theorem fields_lt_iff (time time' : List Int) (valid : dt.Valid) (valid' : dt'.Valid)
    (hx : ∀ n ∈ time, 0 ≤ n) (hy : ∀ n ∈ time', 0 ≤ n) :
    dt.year.toNat :: dt.month.toNat :: dt.day.toNat :: time.map Int.toNat <
        dt'.year.toNat :: dt'.month.toNat :: dt'.day.toNat :: time'.map Int.toNat ↔
      days_from_civil dt.year dt.month dt.day :: time <
        days_from_civil dt'.year dt'.month dt'.day :: time' := by
  have r := valid.ranges
  have r' := valid'.ranges
  obtain ⟨lt, eq⟩ := moment_day valid valid'
  have year := Int.le_trans (by decide : (0 : Int) ≤ 1) r.year.1
  have month := Int.le_trans (by decide : (0 : Int) ≤ 1) r.month.1
  have day := Int.le_trans (by decide : (0 : Int) ≤ 1) r.day.1
  have year' := Int.le_trans (by decide : (0 : Int) ≤ 1) r'.year.1
  have month' := Int.le_trans (by decide : (0 : Int) ≤ 1) r'.month.1
  have day' := Int.le_trans (by decide : (0 : Int) ≤ 1) r'.day.1
  simp only [List.cons_lt_cons_iff, map_toNat_lt hx hy, lt, eq, toNat_lt_iff year,
    toNat_lt_iff month, toNat_lt_iff day, toNat_eq_iff year year', toNat_eq_iff month month',
    toNat_eq_iff day day']
  exact lexicographic

theorem fmt_order (valid : dt.Valid) (valid' : dt'.Valid) :
    record fmt_shape dt.fields < record fmt_shape dt'.fields ↔ dt.moment < dt'.moment := by
  have r := valid.ranges
  have r' := valid'.ranges
  rw [record_lt_iff (fmt_fits r) (fmt_fits r')]
  exact fields_lt_iff [dt.hour, dt.min, dt.sec] [dt'.hour, dt'.min, dt'.sec] valid valid'
    (by simp [r.hour.1, r.min.1, r.sec.1]) (by simp [r'.hour.1, r'.min.1, r'.sec.1])

theorem iso_order (valid : dt.Valid) (valid' : dt'.Valid) :
    record iso_shape dt.iso_fields < record iso_shape dt'.iso_fields ↔
      dt.iso_moment < dt'.iso_moment := by
  have r := valid.ranges
  have r' := valid'.ranges
  rw [record_lt_iff (iso_fits r) (iso_fits r')]
  exact fields_lt_iff [dt.hour, dt.min, dt.sec, dt.ms] [dt'.hour, dt'.min, dt'.sec, dt'.ms]
    valid valid'
    (by simp [r.hour.1, r.min.1, r.sec.1, r.ms.1]) (by simp [r'.hour.1, r'.min.1, r'.sec.1, r'.ms.1])

/-- What there is to know about a function that prints: for good arguments and enough room the
text is in the buffer, before its terminator; otherwise the buffer holds the empty string. -/
structure Prints {α : Type} (good : α → Prop) (text : α → List UInt8)
    (print : α → Option (List UInt8) → Nat → Except Fault (Bool × Option (List UInt8))) : Prop where
  nowhere : ∀ a size, print a none size = .ok (false, none)
  prints : ∀ a m size, size ≤ m.length → good a → (text a).length < size →
    print a (some m) size = .ok (true, some (text a ++ 0 :: m.drop ((text a).length + 1)))
  refuses : ∀ a m size, size ≤ m.length → ¬(good a ∧ (text a).length < size) →
    ∃ m', print a (some m) size = .ok (false, some m') ∧ Refused m m' size

theorem prints_of_fmt {α : Type} {good : α → Prop} {check : α → Bool} {text : α → List UInt8}
    (checked : ∀ a, good a ↔ check a = true) (short : ∀ a, good a → (text a).length < 2 ^ 31) :
    Prints good text fun a => fmt (check a) (text a) where
  nowhere _ _ := rfl
  prints a m size room valid enough := by
    have spec := fmt_spec (check a) (text a) room
    rwa [if_pos ⟨(checked a).1 valid, enough, short a valid⟩] at spec
  refuses a m size room bad := by
    have spec := fmt_spec (check a) (text a) room
    rwa [if_neg fun h => bad ⟨(checked a).2 h.1, h.2.1⟩] at spec

theorem DateTime.valid_iff (dt : DateTime) : dt.Valid ↔
    (valid_date dt.year dt.month dt.day && valid_time dt.hour dt.min dt.sec dt.ms) = true := by
  rw [Bool.and_eq_true]
  exact ⟨fun v => ⟨v.date, v.time⟩, fun h => ⟨h.1, h.2⟩⟩

/-- The date and time that a text shows, to the second. -/
def read_fmt (text : List UInt8) : Option DateTime :=
  match parse fmt_shape text with
  | [year, month, day, hour, min, sec] => some ⟨year, month, day, hour, min, sec, 0⟩
  | _ => none

/-- The date and time that an ISO text shows. -/
def read_iso (text : List UInt8) : Option DateTime :=
  match parse iso_shape text with
  | [year, month, day, hour, min, sec, ms] => some ⟨year, month, day, hour, min, sec, ms⟩
  | _ => none

/-- A field that is not negative is read back. -/
theorem DateTime.Ranges.cast (r : dt.Ranges) : (dt.year.toNat : Int) = dt.year ∧
    (dt.month.toNat : Int) = dt.month ∧ (dt.day.toNat : Int) = dt.day ∧
    (dt.hour.toNat : Int) = dt.hour ∧ (dt.min.toNat : Int) = dt.min ∧
    (dt.sec.toNat : Int) = dt.sec ∧ (dt.ms.toNat : Int) = dt.ms := by
  obtain ⟨year, month, day, hour, min, sec, ms⟩ := r
  omega

theorem fmt_read (r : dt.Ranges) : read_fmt (DATETIME_FMT dt) = some { dt with ms := 0 } := by
  have parsed := parse_record (fmt_fits r) []
  rw [List.append_nil] at parsed
  obtain ⟨year, month, day, hour, min, sec, -⟩ := r.cast
  rw [read_fmt, fmt_text r, parsed]
  simp only [DateTime.fields, year, month, day, hour, min, sec]

theorem iso_read (r : dt.Ranges) : read_iso (DATETIME_FMT_ISO dt) = some dt := by
  have parsed := parse_record (iso_fits r) []
  rw [List.append_nil] at parsed
  obtain ⟨year, month, day, hour, min, sec, ms⟩ := r.cast
  rw [read_iso, iso_text r, parsed]
  simp only [DateTime.fields, DateTime.iso_fields, List.cons_append, List.nil_append, year, month,
    day, hour, min, sec, ms]

theorem fmt_length (r : dt.Ranges) : (DATETIME_FMT dt).length + 1 = DATETIME_FMT_BUFLEN := by
  rw [fmt_text r, record_length (fmt_fits r)]
  rfl

theorem iso_length (r : dt.Ranges) : (DATETIME_FMT_ISO dt).length + 1 = DATETIME_FMT_ISO_BUFLEN := by
  rw [iso_text r, record_length (iso_fits r)]
  rfl

/-- **Dates in texts.** `ct_datetime_fmt` prints exactly the valid dates for which the buffer has
20 bytes and `ct_datetime_fmt_iso` those for which it has 24; everything else leaves the empty
string and `NULL`. A printed date is read back, the ISO text to the millisecond, and the bytes
of the texts are in the order of the days and of the times of the day. -/
theorem datetime_text :
    (Prints DateTime.Valid DATETIME_FMT (fun dt => datetime_fmt (some dt)) ∧
      Prints DateTime.Valid DATETIME_FMT_ISO (fun dt => datetime_fmt_iso (some dt))) ∧
    (∀ (m : List UInt8) (size : Nat), size ≤ m.length → ∃ m',
      datetime_fmt none (some m) size = .ok (false, some m') ∧
      datetime_fmt_iso none (some m) size = .ok (false, some m') ∧ Refused m m' size) ∧
    (∀ dt : DateTime, dt.Valid →
      (DATETIME_FMT dt).length + 1 = DATETIME_FMT_BUFLEN ∧
      (DATETIME_FMT_ISO dt).length + 1 = DATETIME_FMT_ISO_BUFLEN ∧
      read_fmt (DATETIME_FMT dt) = some { dt with ms := 0 } ∧
      read_iso (DATETIME_FMT_ISO dt) = some dt) ∧
    ∀ dt dt' : DateTime, dt.Valid → dt'.Valid →
      (DATETIME_FMT dt < DATETIME_FMT dt' ↔ dt.moment < dt'.moment) ∧
      (DATETIME_FMT_ISO dt < DATETIME_FMT_ISO dt' ↔ dt.iso_moment < dt'.iso_moment) := by
  refine ⟨⟨?_, ?_⟩, fun m size room => ?_, fun dt valid => ?_, fun dt dt' valid valid' => ?_⟩
  · refine prints_of_fmt DateTime.valid_iff fun dt valid => ?_
    have length : _ = 20 := fmt_length valid.ranges
    omega
  · refine prints_of_fmt DateTime.valid_iff fun dt valid => ?_
    have length : _ = 24 := iso_length valid.ranges
    omega
  · have spec := fmt_spec false [] room
    rw [if_neg (by simp)] at spec
    obtain ⟨m', same, refused⟩ := spec
    exact ⟨m', same, same, refused⟩
  · have r := valid.ranges
    exact ⟨fmt_length r, iso_length r, fmt_read r, iso_read r⟩
  · have r := valid.ranges
    have r' := valid'.ranges
    rw [fmt_text r, fmt_text r', iso_text r, iso_text r']
    exact ⟨fmt_order valid valid', iso_order valid valid'⟩

/-! ## Durations -/

/-- What `ct_duration_fmt` prints. -/
def duration_chars (sec : Int) : List UInt8 :=
  DURATION_FMT ((sec.tdiv 60).tdiv 60) ((sec.tdiv 60).tmod 60) (sec.tmod 60)

/-- The duration that a text shows. -/
def read_duration (text : List UInt8) : Nat :=
  let hours := text.take (text.length - 6)
  let rest := text.drop (text.length - 5)
  3600 * value hours + 60 * value (rest.take 2) + value (rest.drop 3)

theorem duration_eq (n : Nat) : duration_chars n =
    padded 2 (n / 3600) ++ (':'.toUInt8 :: (fixed 2 (n / 60 % 60) ++
      ':'.toUInt8 :: fixed 2 (n % 60))) := by
  have pos : (0 : Int) ≤ n := Int.natCast_nonneg n
  have hours : ((n : Int).tdiv 60).tdiv 60 = (n / 3600 : Nat) := by
    rw [Int.tdiv_eq_ediv_of_nonneg pos, Int.tdiv_eq_ediv_of_nonneg (by omega)]
    omega
  have minutes : ((n : Int).tdiv 60).tmod 60 = (n / 60 % 60 : Nat) := by
    rw [Int.tdiv_eq_ediv_of_nonneg pos, Int.tmod_eq_emod_of_nonneg (by omega)]
    omega
  have seconds : (n : Int).tmod 60 = (n % 60 : Nat) := by
    rw [Int.tmod_eq_emod_of_nonneg pos]
    omega
  have two (k : Nat) (hk : k < 60) : formatInt 2 k = fixed 2 k := by
    rw [formatInt_eq (by decide) (Int.natCast_nonneg k) (by rw [Int.toNat_natCast]; omega),
      Int.toNat_natCast]
  rw [duration_chars, DURATION_FMT, hours, minutes, seconds, two _ (Nat.mod_lt _ (by decide)),
    two _ (Nat.mod_lt _ (by decide)), formatInt, if_neg (by omega), Int.natAbs_natCast]
  simp only [List.append_assoc, List.cons_append, List.nil_append]

theorem duration_length (n : Nat) :
    (duration_chars n).length = (padded 2 (n / 3600)).length + 6 := by
  simp [duration_eq]

theorem duration_read (n : Nat) : read_duration (duration_chars n) = n := by
  have length := duration_length n
  rw [duration_eq] at length ⊢
  have front : ∀ (hours rest : List UInt8), (hours ++ rest).take (hours.length + 6 - 6) = hours :=
    fun hours rest => List.take_left' rfl
  have back : ∀ (hours rest : List UInt8) (c : UInt8),
      (hours ++ c :: rest).drop (hours.length + 6 - 5) = rest := fun hours rest c => by
    rw [List.drop_append]
    simp
  rw [read_duration, length, front, back]
  have minutes : (fixed 2 (n / 60 % 60) ++ ':'.toUInt8 :: fixed 2 (n % 60)).take 2 =
      fixed 2 (n / 60 % 60) := List.take_left' (fixed_length 2 _)
  have seconds : (fixed 2 (n / 60 % 60) ++ ':'.toUInt8 :: fixed 2 (n % 60)).drop 3 =
      fixed 2 (n % 60) := by
    rw [List.drop_append]
    simp
  rw [minutes, seconds, value_padded, value_fixed, value_fixed]
  omega

/-- An `int` has at most six digits of hours. -/
theorem duration_short {n : Nat} (h : n < 2 ^ 31) :
    (duration_chars n).length < DURATION_FMT_BUFLEN := by
  have digits : (decimal (n / 3600)).length ≤ 6 := (decimal_length_le_iff (by decide)).2 (by omega)
  rw [duration_length, padded_eq, fixed_length, DURATION_FMT_BUFLEN]
  omega

/-- **Durations in texts.** `ct_duration_fmt` prints every `int` that is not negative when the
buffer has 13 bytes, and otherwise exactly when the text and its terminator fit; a printed
duration is read back. -/
theorem duration_text :
    Prints (fun _ : Fin (2 ^ 31) => True) (fun sec => duration_chars sec)
      (fun sec => duration_fmt sec) ∧
    (∀ (sec : Int) (m : List UInt8) (size : Nat), sec < 0 → size ≤ m.length →
      ∃ m', duration_fmt sec (some m) size = .ok (false, some m') ∧ Refused m m' size) ∧
    ∀ sec : Fin (2 ^ 31), (duration_chars sec).length < DURATION_FMT_BUFLEN ∧
      read_duration (duration_chars sec) = sec := by
  refine ⟨?_, fun sec m size negative room => ?_, fun sec => ?_⟩
  · refine prints_of_fmt (fun sec => ?_) fun sec _ => ?_
    · exact iff_of_true trivial (decide_eq_true (Int.natCast_nonneg sec.val))
    · have short : _ < 13 := duration_short sec.isLt
      omega
  · have spec := fmt_spec (decide (sec ≥ 0)) (duration_chars sec) room
    rwa [if_neg (by simp [Int.not_le.2 negative])] at spec
  · exact ⟨duration_short sec.isLt, duration_read sec⟩

/-- The longest text. -/
example : duration_chars (2 ^ 31 - 1) = "596523:14:07".toList.map Char.toUInt8 := by decide

end Coter.Time
