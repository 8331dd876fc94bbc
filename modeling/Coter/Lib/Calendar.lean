import Mathlib

/-!
# Calendars

Years of twelve months, whose lengths may depend on the year. The days are counted one
by one: from a date to the next one, or to the one before.

* `next_prev`, `prev_next`: each undoes the other, so that dates may be shifted by any
  number of days (`shift`), and shifts add up;
* `number_shift`: a numbering of the days counts shifts.
-/

namespace Lib.Calendar

/-- The lengths of the months of each year. -/
structure Months where
  daysIn : Int → Int → Int
  pos : ∀ {year month : Int}, 1 ≤ month → month ≤ 12 → 1 ≤ daysIn year month

/-- A day of a month that has it. -/
@[ext] structure Date (M : Months) where
  year : Int
  month : Int
  day : Int
  month_pos : 1 ≤ month
  month_le : month ≤ 12
  day_pos : 1 ≤ day
  day_le : day ≤ M.daysIn year month

namespace Date

variable {M : Months}

/-- The day after. -/
def next (d : Date M) : Date M :=
  if inside : d.day < M.daysIn d.year d.month then
    ⟨d.year, d.month, d.day + 1, d.month_pos, d.month_le, by have := d.day_pos; omega, inside⟩
  else if earlier : d.month < 12 then
    ⟨d.year, d.month + 1, 1, by have := d.month_pos; omega, earlier, Int.le_refl 1,
      M.pos (by have := d.month_pos; omega) earlier⟩
  else
    ⟨d.year + 1, 1, 1, Int.le_refl 1, by decide, Int.le_refl 1, M.pos (by decide) (by decide)⟩

/-- The day before. -/
def prev (d : Date M) : Date M :=
  if inside : 1 < d.day then
    ⟨d.year, d.month, d.day - 1, d.month_pos, d.month_le, by omega, by have := d.day_le; omega⟩
  else if later : 1 < d.month then
    ⟨d.year, d.month - 1, M.daysIn d.year (d.month - 1), by omega, by have := d.month_le; omega,
      M.pos (by omega) (by have := d.month_le; omega), Int.le_refl _⟩
  else
    ⟨d.year - 1, 12, M.daysIn (d.year - 1) 12, by decide, Int.le_refl 12,
      M.pos (by decide) (by decide), Int.le_refl _⟩

/-- What the day after may be. -/
theorem next_cases (d : Date M) :
    (d.day < M.daysIn d.year d.month ∧ d.next.year = d.year ∧ d.next.month = d.month ∧
      d.next.day = d.day + 1) ∨
    (d.day = M.daysIn d.year d.month ∧ d.month < 12 ∧ d.next.year = d.year ∧
      d.next.month = d.month + 1 ∧ d.next.day = 1) ∨
    (d.day = M.daysIn d.year d.month ∧ d.month = 12 ∧ d.next.year = d.year + 1 ∧
      d.next.month = 1 ∧ d.next.day = 1) := by
  have last := d.day_le
  have december := d.month_le
  unfold next
  split
  · next inside => exact .inl ⟨inside, rfl, rfl, rfl⟩
  · next full =>
    split
    · next earlier => exact .inr (.inl ⟨by omega, earlier, rfl, rfl, rfl⟩)
    · next => exact .inr (.inr ⟨by omega, by omega, rfl, rfl, rfl⟩)

theorem prev_next (d : Date M) : d.next.prev = d := by
  have first := d.day_pos
  have january := d.month_pos
  obtain ⟨inside, year, month, day⟩ | ⟨last, earlier, year, month, day⟩ |
    ⟨last, december, year, month, day⟩ := d.next_cases
  · rw [prev, dif_pos (by omega)]
    ext <;> simp only [year, month, day]
    omega
  · rw [prev, dif_neg (by omega), dif_pos (by omega)]
    ext <;> simp only [year, month, last, Int.add_sub_cancel]
  · rw [prev, dif_neg (by omega), dif_neg (by omega)]
    ext <;> simp only [year, last, december, Int.add_sub_cancel]

theorem next_prev (d : Date M) : d.prev.next = d := by
  have first := d.day_pos
  have last := d.day_le
  have january := d.month_pos
  have december := d.month_le
  unfold prev
  split
  · next inside =>
    rw [next, dif_pos (show d.day - 1 < M.daysIn d.year d.month by omega)]
    ext <;> simp only [Int.sub_add_cancel]
  · next one =>
    split
    · next later =>
      rw [next, dif_neg (Int.lt_irrefl _), dif_pos (show d.month - 1 < 12 by omega)]
      ext <;> simp only [Int.sub_add_cancel]
      omega
    · next =>
      rw [next, dif_neg (Int.lt_irrefl _), dif_neg (Int.lt_irrefl _)]
      ext <;> simp only [Int.sub_add_cancel] <;> omega

/-- The date `n` days away: `n` times the day after, or `-n` times the day before. -/
def shift : Int → Date M → Date M
  | .ofNat n, d => next^[n] d
  | .negSucc n, d => prev^[n + 1] d

/-- A day forward, and backward. -/
def tomorrow : Equiv.Perm (Date M) := ⟨next, prev, prev_next, next_prev⟩

theorem shift_eq_zpow (n : Int) (d : Date M) : shift n d = (tomorrow ^ n) d := by
  cases n with
  | ofNat n =>
    rw [Int.ofNat_eq_natCast, zpow_natCast, Equiv.Perm.coe_pow]
    rfl
  | negSucc n =>
    rw [zpow_negSucc, ← inv_pow, Equiv.Perm.coe_pow]
    rfl

theorem shift_shift (a b : Int) (d : Date M) : shift b (shift a d) = shift (a + b) d := by
  rw [shift_eq_zpow, shift_eq_zpow, shift_eq_zpow, Int.add_comm, zpow_add, Equiv.Perm.mul_apply]

/-! ## Numbers of days -/

section

variable {number : Date M → Int} (count : ∀ d, number d.next = number d + 1)

include count

/-- A numbering of the days counts shifts. -/
theorem number_shift (n : Int) (d : Date M) : number (shift n d) = number d + n := by
  have forward (n : Nat) (d : Date M) : number (next^[n] d) = number d + n := by
    induction n generalizing d with
    | zero => simp
    | succ n ih =>
      rw [Function.iterate_succ_apply, ih, count]
      omega
  cases n with
  | ofNat n => exact forward n d
  | negSucc n =>
    have back := forward (n + 1) (shift (.negSucc n) d)
    have returned : next^[n + 1] (shift (.negSucc n) d) = d :=
      (Function.LeftInverse.iterate next_prev (n + 1)) d
    rw [returned] at back
    omega

end

end Date

end Lib.Calendar
