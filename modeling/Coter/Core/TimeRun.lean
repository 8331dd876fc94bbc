import Coter.Core.Time
import Coter.Lib.Calendar

/-!
# Counting days

A year is taken to begin with March, so that its leap day is the last one, and 400 years
make an era of 146097 days.

* `days_from_civil_next`: the number of the next day is the next number;
* `civil_from_days_number`: every date is read off its number;
* `add_days_shift`: what `ct_datetime_add_days` does to a date;
* `add_days_counts`: it counts days one by one.
-/

namespace Coter.Time

open Lib.Calendar

/-! ## Division -/

/-- Division that rounds down, for a positive divisor. -/
theorem floor_div {n : Int} (hn : 0 < n) (x : Int) :
    (if x ≥ 0 then x else x - (n - 1)).tdiv n = x / n := by
  by_cases positive : x ≥ 0
  · rw [if_pos positive, Int.tdiv_eq_ediv_of_nonneg positive]
  · have negative : x - (n - 1) = -(-x + (n - 1)) := by omega
    rw [if_neg positive, negative, Int.neg_tdiv, Int.tdiv_eq_ediv_of_nonneg (by omega)]
    have quotient := Int.mul_ediv_add_emod x n
    have low := Int.emod_nonneg x (by omega : n ≠ 0)
    have high := Int.emod_lt_of_pos x hn
    have shifted : -x + (n - 1) = (n - 1 - x % n) + n * -(x / n) := by
      rw [Int.mul_neg]
      omega
    rw [shifted, Int.add_mul_ediv_left _ _ (by omega), Int.ediv_eq_zero_of_lt (by omega) (by omega)]
    omega

theorem tmod_eq_zero (x n : Int) : (x.tmod n == 0) = (x % n == 0) := by
  rw [Bool.eq_iff_iff, beq_iff_eq, beq_iff_eq, ← Int.dvd_iff_tmod_eq_zero,
    ← Int.dvd_iff_emod_eq_zero]

/-! ## Months -/

theorem leap_year_iff (year : Int) :
    leap_year year ↔ year % 4 = 0 ∧ year % 100 ≠ 0 ∨ year % 400 = 0 := by
  unfold leap_year
  rw [bne, tmod_eq_zero, tmod_eq_zero, tmod_eq_zero]
  simp

/-- The place of a month in a year that begins with March. -/
def place (month : Int) : Int := month + if month > 2 then -3 else 9

/-- The days of such a year before a month. -/
def days_before_month (mp : Int) : Int := (153 * mp + 2) / 5

theorem february (year : Int) : days_in_month year 2 = 28 + if leap_year year then 1 else 0 := by
  by_cases leap : leap_year year <;> simp [days_in_month, s_days, leap]

theorem other_month {month : Int} (year : Int) (first : 1 ≤ month) (last : month ≤ 12)
    (other : month ≠ 2) :
    days_in_month year month =
      days_before_month (place month + 1) - days_before_month (place month) := by
  obtain rfl | rfl | rfl | rfl | rfl | rfl | rfl | rfl | rfl | rfl | rfl : month = 1 ∨ month = 3 ∨
      month = 4 ∨ month = 5 ∨ month = 6 ∨ month = 7 ∨ month = 8 ∨ month = 9 ∨ month = 10 ∨
      month = 11 ∨ month = 12 := by omega
  all_goals rfl

theorem days_in_month_pos {year month : Int} (first : 1 ≤ month) (last : month ≤ 12) :
    1 ≤ days_in_month year month := by
  by_cases two : month = 2
  · subst two
    rw [february]
    split <;> omega
  · rw [other_month year first last two]
    unfold days_before_month
    omega

/-- The calendar of the program. -/
def gregorian : Months := ⟨days_in_month, days_in_month_pos⟩

theorem place_range (d : Date gregorian) :
    0 ≤ place d.month ∧ place d.month ≤ 11 := by
  have january := d.month_pos
  have december := d.month_le
  unfold place
  split <;> omega

theorem day_short (d : Date gregorian) : d.day ≤ 31 := by
  have last : d.day ≤ days_in_month d.year d.month := d.day_le
  by_cases two : d.month = 2
  · rw [two, february] at last
    split at last <;> omega
  · rw [other_month _ d.month_pos d.month_le two] at last
    unfold days_before_month at last
    omega

/-! ## Numbers of days -/

/-- The days before the March of a year. -/
def days_before_year (year : Int) : Int := 365 * year + year / 4 - year / 100 + year / 400

theorem days_from_civil_eq (year : Int) {month day : Int} (first : 1 ≤ month) :
    days_from_civil year month day = days_before_year (year - if month ≤ 2 then 1 else 0) +
      days_before_month (place month) + day - 719469 := by
  have months : (153 * (month + if month > 2 then -3 else 9) + 2).tdiv 5 =
      days_before_month (place month) := by
    refine Int.tdiv_eq_ediv_of_nonneg ?_
    split <;> omega
  unfold days_from_civil
  generalize hy : year - (if month ≤ 2 then 1 else 0) = y
  have era : (if y ≥ 0 then y else y - 399).tdiv 400 = y / 400 :=
    floor_div (n := 400) (by decide) y
  have yoe : 0 ≤ y - y / 400 * 400 := by omega
  simp only [era, months, Int.tdiv_eq_ediv_of_nonneg yoe, days_before_year]
  omega

/-- The number of a date. -/
def number (d : Date gregorian) : Int := days_from_civil d.year d.month d.day

theorem days_before_year_succ (year : Int) :
    days_before_year (year + 1) =
      days_before_year year + 365 + if leap_year (year + 1) then 1 else 0 := by
  have leap := leap_year_iff (year + 1)
  unfold days_before_year
  split
  · next h =>
    rw [leap] at h
    omega
  · next h =>
    rw [leap] at h
    omega

/-- **One day more.** The number of the next day is the next number. -/
theorem days_from_civil_next (d : Date gregorian) : number d.next = number d + 1 := by
  have first := d.month_pos
  have last := d.month_le
  unfold number
  rw [days_from_civil_eq _ d.month_pos, days_from_civil_eq _ d.next.month_pos]
  obtain ⟨inside, year, month, day⟩ | ⟨full, earlier, year, month, day⟩ |
    ⟨full, december, year, month, day⟩ := d.next_cases
  · rw [year, month, day]
    omega
  · rw [year, month, day, full]
    by_cases two : d.month = 2
    · have length : gregorian.daysIn d.year d.month = _ := two ▸ february d.year
      have grow := days_before_year_succ (d.year - 1)
      rw [Int.sub_add_cancel] at grow
      rw [length, two, if_neg (by decide), if_pos (by decide), Int.sub_zero, grow]
      change _ + days_before_month 0 + 1 - 719469 = _ + days_before_month 11 + _ - 719469 + 1
      unfold days_before_month
      omega
    · have length : gregorian.daysIn d.year d.month = _ := other_month d.year first last two
      have following : place (d.month + 1) = place d.month + 1 := by
        unfold place
        split <;> split <;> omega
      rw [length, following]
      split <;> split <;> omega
  · have length : gregorian.daysIn d.year d.month = 31 := by rw [december]; rfl
    rw [year, month, day, full, length, december, if_pos (by decide), if_neg (by decide)]
    change _ + days_before_month 10 + 1 - 719469 = _ + days_before_month 9 + 31 - 719469 + 1
    unfold days_before_month
    rw [Int.add_sub_cancel, Int.sub_zero]
    omega

/-! ## Dates by their number -/

/-- The formula for the year of an era, on the days of the year `yoe`. -/
theorem year_of_era {doe yoe doy : Int} (h0 : 0 ≤ yoe) (h400 : yoe < 400) (first : 0 ≤ doy)
    (last : doy ≤ 364 ∨ doy = 365 ∧ yoe % 4 = 3 ∧ (yoe % 100 ≠ 99 ∨ yoe = 399))
    (hdoe : doe = yoe * 365 + yoe / 4 - yoe / 100 + doy) :
    (doe - doe / 1460 + doe / 36524 - doe / 146096) / 365 = yoe := by
  -- The century, the leap period in it, and the year in that.
  obtain ⟨c, hc⟩ : ∃ c, c = yoe / 100 := ⟨_, rfl⟩
  obtain ⟨q, hq⟩ : ∃ q, q = yoe % 100 / 4 := ⟨_, rfl⟩
  obtain ⟨r, hr⟩ : ∃ r, r = yoe % 4 := ⟨_, rfl⟩
  have split : yoe = 100 * c + 4 * q + r := by omega
  have doe_eq : doe = 36524 * c + 1461 * q + 365 * r + doy := by omega
  have hq' : 0 ≤ q ∧ q ≤ 24 := by omega
  have hr' : 0 ≤ r ∧ r ≤ 3 := by omega
  have hc' : 0 ≤ c ∧ c ≤ 3 := by omega
  have last' : doy ≤ 364 ∨ doy = 365 ∧ r = 3 ∧ (q ≤ 23 ∨ c = 3) := by omega
  clear hc hq hr hdoe last h0 h400
  have centuries : doe / 36524 - doe / 146096 = c := by
    rcases (by omega : doe < 36524 * (c + 1) ∨ doe = 146096 ∧ c = 3) with within | ⟨rfl, rfl⟩
    · have century : doe / 36524 = c := by omega
      have era : doe / 146096 = 0 := by omega
      omega
    · decide
  have within : 365 * yoe ≤ doe - doe / 1460 + c ∧ doe - doe / 1460 + c ≤ 365 * yoe + 364 := by
    by_cases later : 24 * c + q + 365 * r + doy < 1460
    · have leaps : doe / 1460 = 25 * c + q := by omega
      omega
    · have leaps : doe / 1460 = 25 * c + q + 1 := by omega
      omega
  omega

/-- The day `day` of the month in place `mp`, in a year that begins with March. -/
theorem civil_from_days_eq {year mp day : Int} (h0 : 0 ≤ mp) (h11 : mp ≤ 11) (first : 1 ≤ day)
    (last : day ≤ days_before_month (mp + 1) - days_before_month mp ∧ mp ≠ 11 ∨
      mp = 11 ∧ day ≤ 28 + if leap_year (year + 1) then 1 else 0) :
    civil_from_days (days_before_year year + days_before_month mp + day - 719469) =
      (i32 (year + if mp < 10 then 0 else 1), i32 (mp + if mp < 10 then 3 else -9), i32 day) := by
  obtain ⟨doy, hdoy⟩ : ∃ doy, doy = days_before_month mp + day - 1 := ⟨_, rfl⟩
  obtain ⟨yoe, hyoe⟩ : ∃ yoe, yoe = year % 400 := ⟨_, rfl⟩
  have leap := leap_year_iff (year + 1)
  have doy_first : 0 ≤ doy := by
    unfold days_before_month at hdoy
    omega
  have doy_last : doy ≤ 364 ∨ doy = 365 ∧ yoe % 4 = 3 ∧ (yoe % 100 ≠ 99 ∨ yoe = 399) := by
    unfold days_before_month at *
    rcases last with last | ⟨rfl, last⟩
    · omega
    · split at last
      · next h =>
        rw [leap] at h
        omega
      · omega
  have month : (5 * doy + 2) / 153 = mp := by
    unfold days_before_month at *
    rcases last with last | ⟨rfl, last⟩
    · omega
    · omega
  obtain ⟨doe, hdoe⟩ : ∃ doe, doe = yoe * 365 + yoe / 4 - yoe / 100 + doy := ⟨_, rfl⟩
  obtain ⟨z, hz⟩ : ∃ z, z = days_before_year year + days_before_month mp + day - 719469 + 719468 :=
    ⟨_, rfl⟩
  have fourth : year / 4 = 100 * (year / 400) + yoe / 4 := by omega
  have hundredth : year / 100 = 4 * (year / 400) + yoe / 100 := by omega
  have total : z = year / 400 * 146097 + doe := by
    unfold days_before_year at hz
    rw [fourth, hundredth] at hz
    omega
  have doe_first : 0 ≤ doe := by omega
  have doe_last : doe < 146097 := by omega
  have era : (if z ≥ 0 then z else z - 146096).tdiv 146097 = year / 400 := by
    have down := floor_div (n := 146097) (by decide) z
    rw [show (146097 - 1 : Int) = 146096 from rfl] at down
    omega
  have rest : z - year / 400 * 146097 = doe := by omega
  have years : (doe - doe / 1460 + doe / 36524 - doe / 146096).tdiv 365 = yoe := by
    rw [Int.tdiv_eq_ediv_of_nonneg (by omega)]
    exact year_of_era (by omega) (by omega) doy_first doy_last hdoe
  have days : doe - (365 * yoe + yoe / 4 - yoe / 100) = doy := by omega
  unfold civil_from_days
  rw [← hz]
  simp only [era, rest, Int.tdiv_eq_ediv_of_nonneg doe_first, years,
    Int.tdiv_eq_ediv_of_nonneg (show 0 ≤ yoe by omega), days,
    Int.tdiv_eq_ediv_of_nonneg (show 0 ≤ 5 * doy + 2 by omega), month,
    Int.tdiv_eq_ediv_of_nonneg (show 0 ≤ 153 * mp + 2 by omega)]
  have whole : yoe + year / 400 * 400 = year := by omega
  have first_day : doy - (153 * mp + 2) / 5 + 1 = day := by
    unfold days_before_month at hdoy
    omega
  rw [whole, first_day]
  by_cases early : mp < 10
  · rw [if_pos early, if_pos early, if_neg (by omega)]
  · rw [if_neg early, if_neg early, if_pos (by omega)]

/-- **Back.** Every date whose year is an `int` is read off its number. -/
theorem civil_from_days_number (d : Date gregorian) (low : -(2 ^ 31) ≤ d.year)
    (high : d.year < 2 ^ 31) : civil_from_days (number d) = (d.year, d.month, d.day) := by
  have january := d.month_pos
  have december := d.month_le
  have first := d.day_pos
  have last : d.day ≤ days_in_month d.year d.month := d.day_le
  unfold number
  rw [days_from_civil_eq _ d.month_pos]
  have placed := place_range d
  have short := day_short d
  rw [civil_from_days_eq placed.1 placed.2 first ?_]
  · unfold place
    have year : d.year - (if d.month ≤ 2 then 1 else 0) +
        (if d.month + (if d.month > 2 then -3 else 9) < 10 then 0 else 1) = d.year := by
      split <;> split <;> split <;> omega
    have month : d.month + (if d.month > 2 then -3 else 9) +
        (if d.month + (if d.month > 2 then -3 else 9) < 10 then 3 else -9) = d.month := by
      split <;> split <;> omega
    rw [year, month, i32_of_range low high, i32_of_range (by omega) (by omega),
      i32_of_range (by omega) (by omega)]
  · by_cases two : d.month = 2
    · right
      rw [two, february] at last
      rw [two, if_pos (show (2 : Int) ≤ 2 by decide), Int.sub_add_cancel]
      exact ⟨rfl, last⟩
    · left
      rw [other_month _ january december two] at last
      refine ⟨last, ?_⟩
      unfold place
      split <;> omega

/-! ## Ranges -/

theorem number_bounds (d : Date gregorian) :
    days_before_year d.year - 720000 ≤ number d ∧ number d ≤ days_before_year d.year - 719000 := by
  have placed := place_range d
  have first := d.day_pos
  have short := day_short d
  unfold number
  rw [days_from_civil_eq _ d.month_pos]
  unfold days_before_month days_before_year
  split <;> omega

/-- The dates within `2 ^ 32` days of the epoch have years that are `int`s. -/
theorem year_range {d : Date gregorian} (low : -(2 ^ 32) ≤ number d) (high : number d ≤ 2 ^ 32) :
    -(2 ^ 31) ≤ d.year ∧ d.year < 2 ^ 31 := by
  have bounds := number_bounds d
  unfold days_before_year at bounds
  omega

/-- Where a number of days that is an `int` leads to from a valid date. -/
theorem number_reached {d : Date gregorian} (first : 1 ≤ d.year) (last : d.year ≤ 9999) {n : Int}
    (low : -(2 ^ 31) ≤ n) (high : n < 2 ^ 31) :
    -(2 ^ 32) ≤ number d + n ∧ number d + n ≤ 2 ^ 32 := by
  have bounds := number_bounds d
  unfold days_before_year at bounds
  omega

theorem civil_from_days_shift {d : Date gregorian} (first : 1 ≤ d.year) (last : d.year ≤ 9999)
    {n : Int} (low : -(2 ^ 31) ≤ n) (high : n < 2 ^ 31) :
    civil_from_days (number d + n) =
      ((d.shift n).year, (d.shift n).month, (d.shift n).day) := by
  have reached := number_reached first last low high
  rw [← Date.number_shift days_from_civil_next] at reached ⊢
  have years := year_range reached.1 reached.2
  exact civil_from_days_number _ years.1 years.2

/-! ## Adding days -/

theorem valid_date_iff (year month day : Int) : valid_date year month day ↔
    (1 ≤ year ∧ year ≤ 9999) ∧ 1 ≤ month ∧ month ≤ 12 ∧ 1 ≤ day ∧
      day ≤ days_in_month year month := by
  simp [valid_date, and_assoc]

/-- The date of a valid date. -/
def dateOf {year month day : Int} (h : valid_date year month day) : Date gregorian :=
  have fields := (valid_date_iff ..).1 h
  ⟨year, month, day, fields.2.1, fields.2.2.1, fields.2.2.2.1, fields.2.2.2.2⟩

/-- A valid date and time of day. -/
structure DateTime.Valid (dt : DateTime) : Prop where
  date : valid_date dt.year dt.month dt.day
  time : valid_time dt.hour dt.min dt.sec dt.ms

/-- The same time of day on another date. -/
def DateTime.on (dt : DateTime) (d : Date gregorian) : DateTime :=
  { dt with year := d.year, month := d.month, day := d.day }

theorem valid_on {dt : DateTime} (valid : dt.Valid) {d : Date gregorian} (first : 1 ≤ d.year)
    (last : d.year ≤ 9999) : (dt.on d).Valid where
  date := (valid_date_iff ..).2 ⟨⟨first, last⟩, d.month_pos, d.month_le, d.day_pos, d.day_le⟩
  time := valid.time

/-- What `ct_datetime_add_days` does to a valid date. -/
theorem add_days_shift {dt : DateTime} (valid : dt.Valid) {n : Int} (low : -(2 ^ 31) ≤ n)
    (high : n < 2 ^ 31) :
    add_days (some dt) n =
      if 1 ≤ ((dateOf valid.date).shift n).year ∧ ((dateOf valid.date).shift n).year ≤ 9999 then
        (true, some (dt.on ((dateOf valid.date).shift n)))
      else (false, some dt) := by
  have years := ((valid_date_iff ..).1 valid.date).1
  have read := civil_from_days_shift (d := dateOf valid.date) years.1 years.2 low high
  change civil_from_days (days_from_civil dt.year dt.month dt.day + n) = _ at read
  unfold add_days
  simp only [valid.date, valid.time, read]
  generalize (dateOf valid.date).shift n = d
  by_cases inside : 1 ≤ d.year ∧ d.year ≤ 9999
  · rw [if_pos inside]
    simp [DateTime.on, inside]
  · rw [if_neg inside]
    have outside : d.year < 1 ∨ d.year > 9999 := by omega
    simp [outside]

theorem add_days_fails {dt : Option DateTime} {n : Int} (h : (add_days dt n).1 = false) :
    (add_days dt n).2 = dt := by
  unfold add_days at h ⊢
  split at h
  · rfl
  · dsimp only at h ⊢
    split
    · rfl
    · next valid =>
      rw [if_neg valid] at h
      split
      · rfl
      · next inside =>
        rw [if_neg inside] at h
        cases h

theorem add_days_valid {dt after : DateTime} {n : Int}
    (h : add_days (some dt) n = (true, some after)) : dt.Valid := by
  by_cases date : valid_date dt.year dt.month dt.day
  · by_cases time : valid_time dt.hour dt.min dt.sec dt.ms
    · exact ⟨date, time⟩
    · simp [add_days, date, time] at h
  · simp [add_days, date] at h

theorem add_days_succeeds {dt after : DateTime} (valid : dt.Valid) {n : Int} (low : -(2 ^ 31) ≤ n)
    (high : n < 2 ^ 31) (h : add_days (some dt) n = (true, some after)) :
    (1 ≤ ((dateOf valid.date).shift n).year ∧ ((dateOf valid.date).shift n).year ≤ 9999) ∧
      after = dt.on ((dateOf valid.date).shift n) := by
  rw [add_days_shift valid low high] at h
  split at h
  · next inside => exact ⟨inside, (Option.some.inj (Prod.mk.inj h).2).symm⟩
  · cases (Prod.mk.inj h).1

/-- **Counting days.** The date `n` days away is found by counting, and no other field
changes; nothing does where it is outside of the years 1 to 9999. -/
theorem add_days_counts :
    (∀ (dt : DateTime) (valid : dt.Valid) (n : Int), -(2 ^ 31) ≤ n → n < 2 ^ 31 →
      ((add_days (some dt) n).1 ↔
        1 ≤ ((dateOf valid.date).shift n).year ∧ ((dateOf valid.date).shift n).year ≤ 9999) ∧
      ((add_days (some dt) n).1 → (add_days (some dt) n).2 =
        some (dt.on ((dateOf valid.date).shift n)) ∧
          (dt.on ((dateOf valid.date).shift n)).Valid)) ∧
    (∀ (dt first second : DateTime) (a b : Int), -(2 ^ 31) ≤ a → a < 2 ^ 31 → -(2 ^ 31) ≤ b →
      b < 2 ^ 31 → -(2 ^ 31) ≤ a + b → a + b < 2 ^ 31 →
      add_days (some dt) a = (true, some first) → add_days (some first) b = (true, some second) →
      add_days (some dt) (a + b) = (true, some second)) ∧
    (∀ (dt : Option DateTime) (n : Int), (add_days dt n).1 = false → (add_days dt n).2 = dt) ∧
    (∀ year month day : Int, valid_date year month day →
      civil_from_days (days_from_civil year month day) = (year, month, day)) ∧
    ∀ year month day n : Int, valid_date year month day → -(2 ^ 31) ≤ n → n < 2 ^ 31 →
      ∃ year' month' day', civil_from_days (days_from_civil year month day + n) =
        (year', month', day') ∧ days_from_civil year' month' day' =
          days_from_civil year month day + n := by
  refine ⟨fun dt valid n low high => ?_, fun dt first second a b lowA highA lowB highB low high
    ha hb => ?_, fun dt n h => add_days_fails h, fun year month day valid => ?_,
    fun year month day n valid low high => ?_⟩
  · rw [add_days_shift valid low high]
    split
    · next inside =>
      exact ⟨iff_of_true rfl inside, fun _ => ⟨rfl, valid_on valid inside.1 inside.2⟩⟩
    · next outside => exact ⟨iff_of_false Bool.false_ne_true outside, fun h => by cases h⟩
  · have valid := add_days_valid ha
    obtain ⟨insideA, rfl⟩ := add_days_succeeds valid lowA highA ha
    have valid' := valid_on valid insideA.1 insideA.2
    obtain ⟨insideB, rfl⟩ := add_days_succeeds valid' lowB highB hb
    have both : (dateOf valid'.date).shift b = (dateOf valid.date).shift (a + b) :=
      Date.shift_shift a b _
    rw [both] at insideB ⊢
    rw [add_days_shift valid low high, if_pos insideB]
    rfl
  · have years := ((valid_date_iff ..).1 valid).1
    have wide (y : Int) (h : 1 ≤ y ∧ y ≤ 9999) : -(2 ^ 31) ≤ y ∧ y < 2 ^ 31 := by omega
    exact civil_from_days_number (dateOf valid) (wide _ years).1 (wide _ years).2
  · have years := ((valid_date_iff ..).1 valid).1
    exact ⟨_, _, _, civil_from_days_shift (d := dateOf valid) years.1 years.2 low high,
      Date.number_shift days_from_civil_next n (dateOf valid)⟩

theorem add_days_counts_leap :
    (add_days (some ⟨2024, 2, 28, 12, 30, 0, 0⟩) 2).2 = some ⟨2024, 3, 1, 12, 30, 0, 0⟩ ∧
    add_days (some ⟨2024, 2, 28, 12, 30, 0, 0⟩) (2 + -1) =
      (true, some ⟨2024, 2, 29, 12, 30, 0, 0⟩) ∧
    (add_days (some ⟨9999, 12, 31, 23, 59, 60, 0⟩) 1).2 =
      some ⟨9999, 12, 31, 23, 59, 60, 0⟩ ∧
    civil_from_days (days_from_civil 2024 2 29) = (2024, 2, 29) ∧
    ∃ year month day, civil_from_days (days_from_civil 1 1 1 + -2147483648) = (year, month, day) ∧
      days_from_civil year month day = days_from_civil 1 1 1 + -2147483648 :=
  ⟨((add_days_counts.1 ⟨2024, 2, 28, 12, 30, 0, 0⟩ ⟨by decide, by decide⟩ 2 (by decide)
      (by decide)).2 (by decide)).1,
    add_days_counts.2.1 ⟨2024, 2, 28, 12, 30, 0, 0⟩ ⟨2024, 3, 1, 12, 30, 0, 0⟩ _ 2 (-1)
      (by decide) (by decide) (by decide) (by decide) (by decide) (by decide) (by decide)
      (by decide),
    add_days_counts.2.2.1 (some ⟨9999, 12, 31, 23, 59, 60, 0⟩) 1 (by decide),
    add_days_counts.2.2.2.1 2024 2 29 (by decide),
    add_days_counts.2.2.2.2 1 1 1 (-2147483648) (by decide) (by decide) (by decide)⟩

end Coter.Time
