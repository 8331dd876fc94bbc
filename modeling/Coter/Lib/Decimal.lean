import Mathlib

/-!
# Decimal texts

Numbers in decimal digits, one byte a digit, and records of numbers between separators.

* `decimal`, `padded`, `fixed`: the shortest text of a number, the text that zeros fill up,
  and the text of a fixed number of digits;
* `value_padded`: reading a number back;
* `parse_record`, `record_lt_iff`: a record of fixed width is read back, and its bytes are in
  the order of its numbers.
-/

namespace Lib.Decimal

def digit (d : Nat) : UInt8 := UInt8.ofNat (48 + d)

/-- The last `w` digits of a number. -/
def fixed : Nat → Nat → List UInt8
  | 0, _ => []
  | w + 1, n => fixed w (n / 10) ++ [digit (n % 10)]

/-- The shortest text of a number. -/
def decimal (n : Nat) : List UInt8 := (Nat.toDigits 10 n).map fun c => UInt8.ofNat c.toNat

/-- The text of a number, filled up with zeros to `w` digits. -/
def padded (w n : Nat) : List UInt8 :=
  List.replicate (w - (decimal n).length) (digit 0) ++ decimal n

/-- The number that a text of digits stands for. -/
def value (text : List UInt8) : Nat := text.foldl (fun v c => 10 * v + (c.toNat - 48)) 0

variable {w n m : Nat}

theorem digit_toNat (h : n < 10) : (digit n).toNat = 48 + n := by
  rw [digit, UInt8.toNat_ofNat']
  omega

@[simp] theorem fixed_length (w n : Nat) : (fixed w n).length = w := by
  induction w generalizing n with
  | zero => rfl
  | succ w ih => simp [fixed, ih]

theorem fixed_zero (w : Nat) : fixed w 0 = List.replicate w (digit 0) := by
  induction w with
  | zero => rfl
  | succ w ih => rw [fixed, Nat.zero_div, ih, List.replicate_succ']

/-- The last digit comes off the end. -/
theorem decimal_eq (n : Nat) :
    decimal n = (if n < 10 then [] else decimal (n / 10)) ++ [digit (n % 10)] := by
  have single (d : Nat) (hd : d < 10) : UInt8.ofNat (Nat.digitChar d).toNat = digit d := by
    interval_cases d <;> rfl
  unfold decimal
  rw [Nat.toDigits_eq_if (by decide)]
  split
  · next small => simp [single n small, Nat.mod_eq_of_lt small]
  · simp [single (n % 10) (Nat.mod_lt n (by decide))]

theorem decimal_length_pos (n : Nat) : 0 < (decimal n).length := by
  rw [decimal_eq]
  simp

theorem decimal_length_le_iff {k : Nat} (hk : 0 < k) : (decimal n).length ≤ k ↔ n < 10 ^ k := by
  rw [decimal, List.length_map]
  exact Nat.length_toDigits_le_iff (by decide) hk

/-- Zeros before the shortest text are the leading digits. -/
theorem fill_decimal {k : Nat} (h : (decimal n).length ≤ k) :
    List.replicate (k - (decimal n).length) (digit 0) ++ decimal n = fixed k n := by
  induction k generalizing n with
  | zero => exact absurd h (Nat.not_le.2 (decimal_length_pos n))
  | succ k ih =>
    rw [decimal_eq] at h ⊢
    rw [fixed]
    by_cases small : n < 10
    · rw [if_pos small, Nat.div_eq_of_lt small, fixed_zero]
      rfl
    · rw [if_neg small] at h ⊢
      have shorter : (decimal (n / 10)).length ≤ k := by simpa using h
      rw [← ih shorter, List.length_append, List.length_singleton, Nat.add_sub_add_right,
        List.append_assoc]

theorem padded_eq (w n : Nat) : padded w n = fixed (max w (decimal n).length) n := by
  rw [padded, ← fill_decimal (Nat.le_max_right w _)]
  congr 2
  omega

/-- A number that fits is printed in exactly the digits that it is given. -/
theorem padded_of_lt (hw : 0 < w) (h : n < 10 ^ w) : padded w n = fixed w n := by
  rw [padded_eq, Nat.max_eq_left ((decimal_length_le_iff hw).2 h)]

theorem value_append_digit (text : List UInt8) (d : Nat) (hd : d < 10) :
    value (text ++ [digit d]) = 10 * value text + d := by
  rw [value, List.foldl_append, List.foldl_cons, List.foldl_nil, digit_toNat hd]
  exact congrArg (10 * value text + ·) (Nat.add_sub_cancel_left 48 d)

theorem value_fixed (w n : Nat) : value (fixed w n) = n % 10 ^ w := by
  induction w generalizing n with
  | zero => rw [Nat.pow_zero, Nat.mod_one]; rfl
  | succ w ih =>
    rw [fixed, value_append_digit _ _ (Nat.mod_lt n (by decide)), ih, Nat.pow_succ', Nat.mod_mul,
      Nat.add_comm]

theorem value_padded (w n : Nat) : value (padded w n) = n := by
  have bound : n < 10 ^ max w (decimal n).length :=
    (decimal_length_le_iff (Nat.lt_of_lt_of_le (decimal_length_pos n) (Nat.le_max_right ..))).1
      (Nat.le_max_right ..)
  rw [padded_eq, value_fixed, Nat.mod_eq_of_lt bound]

/-! ## The order of texts -/

/-- Behind two texts of one length, what follows decides only where they agree. -/
theorem append_lt_append_iff {a b : List UInt8} (h : a.length = b.length) (s t : List UInt8) :
    a ++ s < b ++ t ↔ a < b ∨ a = b ∧ s < t := by
  induction a generalizing b with
  | nil =>
    obtain rfl := List.length_eq_zero_iff.1 h.symm
    simp
  | cons x a ih =>
    obtain ⟨y, b, rfl⟩ := List.exists_cons_of_length_eq_add_one h.symm
    have rest := ih (by simpa using h)
    simp only [List.cons_append, List.cons_lt_cons_iff, rest, List.cons.injEq]
    tauto

theorem digit_lt_iff (hn : n < 10) (hm : m < 10) : digit n < digit m ↔ n < m := by
  rw [UInt8.lt_iff_toNat_lt, digit_toNat hn, digit_toNat hm]
  omega

theorem fixed_injOn (hn : n < 10 ^ w) (hm : m < 10 ^ w) : fixed w n = fixed w m ↔ n = m := by
  refine ⟨fun same => ?_, congrArg (fixed w)⟩
  have values := congrArg value same
  rwa [value_fixed, value_fixed, Nat.mod_eq_of_lt hn, Nat.mod_eq_of_lt hm] at values

theorem fixed_lt_iff (hn : n < 10 ^ w) (hm : m < 10 ^ w) : fixed w n < fixed w m ↔ n < m := by
  induction w generalizing n m with
  | zero =>
    obtain rfl : n = 0 := by simpa using hn
    obtain rfl : m = 0 := by simpa using hm
    simp
  | succ w ih =>
    rw [Nat.pow_succ'] at hn hm
    have fewer {k : Nat} (hk : k < 10 * 10 ^ w) : k / 10 < 10 ^ w := Nat.div_lt_of_lt_mul hk
    have last : [digit (n % 10)] < [digit (m % 10)] ↔ n % 10 < m % 10 := by
      simp [List.cons_lt_cons_iff,
        digit_lt_iff (Nat.mod_lt n (by decide)) (Nat.mod_lt m (by decide))]
    rw [fixed, fixed, append_lt_append_iff (by rw [fixed_length, fixed_length]), ih (fewer hn) (fewer hm),
      fixed_injOn (fewer hn) (fewer hm), last]
    omega

/-! ## Records -/

/-- Numbers of fixed width, each with the separator behind it. -/
def record : List (Nat × List UInt8) → List Nat → List UInt8
  | (w, sep) :: shape, n :: ns => fixed w n ++ sep ++ record shape ns
  | _, _ => []

/-- Every number has a place and fits there. -/
def Fits : List (Nat × List UInt8) → List Nat → Prop
  | [], ns => ns = []
  | (w, _) :: shape, ns => ∃ n rest, ns = n :: rest ∧ n < 10 ^ w ∧ Fits shape rest

/-- The numbers of a record. -/
def parse : List (Nat × List UInt8) → List UInt8 → List Nat
  | [], _ => []
  | (w, sep) :: shape, text =>
    value (text.take w) :: parse shape (text.drop (w + sep.length))

variable {shape : List (Nat × List UInt8)} {ns ms : List Nat}

theorem record_length (fits : Fits shape ns) :
    (record shape ns).length = (shape.map fun p => p.1 + p.2.length).sum := by
  induction shape generalizing ns with
  | nil => rfl
  | cons p shape ih =>
    obtain ⟨n, rest, rfl, -, fits⟩ := fits
    simp only [record, List.length_append, fixed_length, ih fits, List.map_cons, List.sum_cons]

theorem parse_record (fits : Fits shape ns) (more : List UInt8) :
    parse shape (record shape ns ++ more) = ns := by
  induction shape generalizing ns with
  | nil => exact fits.symm
  | cons p shape ih =>
    obtain ⟨w, sep⟩ := p
    obtain ⟨n, rest, rfl, bound, fits⟩ := fits
    have first : (fixed w n ++ (sep ++ (record shape rest ++ more))).take w = fixed w n :=
      List.take_left' (fixed_length w n)
    have behind : (fixed w n ++ (sep ++ (record shape rest ++ more))).drop (w + sep.length) =
        record shape rest ++ more := by
      rw [← List.append_assoc]
      exact List.drop_left' (by simp)
    rw [record, parse, List.append_assoc, List.append_assoc, first, behind, value_fixed,
      Nat.mod_eq_of_lt bound, ih fits]

/-- The bytes of two records are in the order of their numbers. -/
theorem record_lt_iff (hn : Fits shape ns) (hm : Fits shape ms) :
    record shape ns < record shape ms ↔ ns < ms := by
  induction shape generalizing ns ms with
  | nil =>
    obtain rfl : ns = [] := hn
    obtain rfl : ms = [] := hm
    simp [record]
  | cons p shape ih =>
    obtain ⟨w, sep⟩ := p
    obtain ⟨n, ns, rfl, hn, fits⟩ := hn
    obtain ⟨m, ms, rfl, hm, fits'⟩ := hm
    have irrefl : ¬sep < sep := List.lt_irrefl sep
    rw [record, record, List.append_assoc, List.append_assoc, append_lt_append_iff (by rw [fixed_length, fixed_length]),
      append_lt_append_iff rfl, ih fits fits', fixed_lt_iff hn hm, fixed_injOn hn hm,
      List.cons_lt_cons_iff]
    tauto

end Lib.Decimal
