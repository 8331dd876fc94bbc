import Mathlib

/-!
# Packed lanes

A number as lanes of `w` bits, from the lowest one. Sums and multiples of packed
numbers are taken lane by lane whatever the lanes hold, differences and bitwise
operations as long as no lane reaches the next one.

* `pack_add`, `pack_mul`, `pack_sub`: arithmetic on all lanes;
* `pack_shiftRight_and`, `pack_and_high`, `pack_or`: a field of each lane, taken
  out by a shift and a mask, and put beside another;
* `pack_split`: each lane as two of half the width;
* `ofDigits_range`, `ofDigits_digit`, `ofDigits_lt`: a number and its digits;
* `Packed`: a word by its lanes, and what each operation on the word does to them.
-/

namespace Lib.Lanes

/-- The number with the lanes `L` of `w` bits. -/
def pack (w : Nat) (L : List Nat) : Nat := Nat.ofDigits (2 ^ w) L

variable {w : Nat} {α : Type}

@[simp] theorem pack_nil : pack w [] = 0 := rfl

theorem pack_cons (a : Nat) (L : List Nat) : pack w (a :: L) = a + 2 ^ w * pack w L :=
  Nat.ofDigits_cons ..

theorem pack_singleton (a : Nat) : pack w [a] = a := by
  rw [pack_cons, pack_nil, Nat.mul_zero, Nat.add_zero]

theorem pack_lt {L : List Nat} (h : ∀ x ∈ L, x < 2 ^ w) : pack w L < 2 ^ (w * L.length) := by
  induction L with
  | nil => simp
  | cons a L ih =>
    have ha := h a (by simp)
    have hL := ih fun x hx => h x (by simp [hx])
    have step : 2 ^ w * (pack w L + 1) ≤ 2 ^ w * 2 ^ (w * L.length) :=
      Nat.mul_le_mul_left _ hL
    rw [pack_cons, List.length_cons, Nat.mul_succ, Nat.add_comm (w * _), Nat.pow_add]
    rw [Nat.mul_succ] at step
    omega

theorem pack_congr {f g : α → Nat} {L : List α} (h : ∀ x ∈ L, f x = g x) :
    pack w (L.map f) = pack w (L.map g) := by
  rw [List.map_congr_left h]

/-! ## Arithmetic -/

theorem pack_add (f g : α → Nat) (L : List α) :
    pack w (L.map f) + pack w (L.map g) = pack w (L.map fun x => f x + g x) := by
  induction L with
  | nil => rfl
  | cons a L ih =>
    simp only [List.map_cons, pack_cons, ← ih, Nat.mul_add]
    omega

theorem pack_mul (f : α → Nat) (c : Nat) (L : List α) :
    pack w (L.map f) * c = pack w (L.map fun x => f x * c) := by
  induction L with
  | nil => simp
  | cons a L ih =>
    simp only [List.map_cons, pack_cons, ← ih]
    rw [Nat.add_mul, Nat.mul_assoc]

theorem pack_sub {f g : α → Nat} {L : List α} (h : ∀ x ∈ L, g x ≤ f x) :
    pack w (L.map f) - pack w (L.map g) = pack w (L.map fun x => f x - g x) := by
  have sum : pack w (L.map fun x => f x - g x) + pack w (L.map g) = pack w (L.map f) := by
    rw [pack_add]
    exact pack_congr fun x hx => Nat.sub_add_cancel (h x hx)
  omega

theorem pack_le {f g : α → Nat} {L : List α} (h : ∀ x ∈ L, g x ≤ f x) :
    pack w (L.map g) ≤ pack w (L.map f) := by
  have sum : pack w (L.map fun x => f x - g x) + pack w (L.map g) = pack w (L.map f) := by
    rw [pack_add]
    exact pack_congr fun x hx => Nat.sub_add_cancel (h x hx)
  omega

/-! ## Bits -/

/-- A mask whose lowest `w` bits are those of `m`. -/
theorem and_add {m : Nat} (hm : m < 2 ^ w) (x M : Nat) :
    x &&& (m + 2 ^ w * M) = (x &&& m) + 2 ^ w * ((x >>> w) &&& M) := by
  have low : x &&& m < 2 ^ w := Nat.and_lt_two_pow x hm
  apply Nat.eq_of_testBit_eq
  intro i
  rw [Nat.add_comm m, Nat.add_comm (x &&& m), Nat.testBit_and, Nat.testBit_two_pow_mul_add M hm,
    Nat.testBit_two_pow_mul_add _ low]
  by_cases hi : i < w
  · rw [if_pos hi, if_pos hi, Nat.testBit_and]
  · rw [if_neg hi, if_neg hi, Nat.testBit_and, Nat.testBit_shiftRight, Nat.add_sub_cancel' (by omega)]

theorem or_add {a b : Nat} (ha : a < 2 ^ w) (hb : b < 2 ^ w) (A B : Nat) :
    (a + 2 ^ w * A) ||| (b + 2 ^ w * B) = (a ||| b) + 2 ^ w * (A ||| B) := by
  have low : a ||| b < 2 ^ w := Nat.or_lt_two_pow ha hb
  apply Nat.eq_of_testBit_eq
  intro i
  rw [Nat.add_comm a, Nat.add_comm b, Nat.add_comm (a ||| b), Nat.testBit_or,
    Nat.testBit_two_pow_mul_add A ha, Nat.testBit_two_pow_mul_add B hb,
    Nat.testBit_two_pow_mul_add _ low]
  by_cases hi : i < w
  · rw [if_pos hi, if_pos hi, if_pos hi, Nat.testBit_or]
  · rw [if_neg hi, if_neg hi, if_neg hi, Nat.testBit_or]

theorem shiftRight_add (a A : Nat) {o : Nat} (ho : o ≤ w) :
    (a + 2 ^ w * A) >>> o = a / 2 ^ o + 2 ^ (w - o) * A := by
  have split : 2 ^ w = 2 ^ o * 2 ^ (w - o) := by rw [← Nat.pow_add, Nat.add_sub_cancel' ho]
  rw [Nat.shiftRight_eq_div_pow, split, Nat.mul_assoc, Nat.add_mul_div_left _ _ (Nat.two_pow_pos o)]

/-- `s` bits of each lane, from bit `o` on. -/
theorem pack_shiftRight_and {o s : Nat} (h : o + s ≤ w) {f : α → Nat} {L : List α}
    (hf : ∀ x ∈ L, f x < 2 ^ w) :
    (pack w (L.map f) >>> o) &&& pack w (L.map fun _ => 2 ^ s - 1) =
      pack w (L.map fun x => f x / 2 ^ o % 2 ^ s) := by
  induction L with
  | nil => simp
  | cons a L ih =>
    have ha := hf a (by simp)
    have hL := ih fun x hx => hf x (by simp [hx])
    have positive := Nat.two_pow_pos s
    have le : 2 ^ s ≤ 2 ^ w := Nat.pow_le_pow_right (by decide) (by omega)
    have mask : 2 ^ s - 1 < 2 ^ w := by omega
    simp only [List.map_cons, pack_cons]
    rw [and_add mask, ← hL, shiftRight_add _ _ (by omega), Nat.and_two_pow_sub_one_eq_mod]
    have low : (f a / 2 ^ o + 2 ^ (w - o) * pack w (L.map f)) % 2 ^ s = f a / 2 ^ o % 2 ^ s := by
      obtain ⟨k, hk⟩ := Nat.pow_dvd_pow 2 (show s ≤ w - o by omega)
      rw [hk, Nat.mul_assoc, Nat.add_mul_mod_self_left]
    have high : (f a / 2 ^ o + 2 ^ (w - o) * pack w (L.map f)) >>> w =
        pack w (L.map f) >>> o := by
      have small : f a / 2 ^ o < 2 ^ (w - o) := by
        rw [Nat.div_lt_iff_lt_mul (Nat.two_pow_pos o), ← Nat.pow_add, Nat.sub_add_cancel (by omega)]
        exact ha
      have split : w = w - o + o := by omega
      rw [split, Nat.shiftRight_add, ← split, shiftRight_add _ _ (Nat.le_refl _), Nat.sub_self,
        Nat.pow_zero, Nat.one_mul, Nat.div_eq_of_lt small, Nat.zero_add]
    rw [low, high]

theorem and_high (y h m : Nat) : y &&& 2 ^ h * m = 2 ^ h * (y / 2 ^ h &&& m) := by
  have masked := and_add (Nat.two_pow_pos h) y m
  rwa [Nat.and_zero, Nat.zero_add, Nat.zero_add, Nat.shiftRight_eq_div_pow] at masked

/-- The bits of each lane from bit `h` on, in their place. -/
theorem pack_and_high {h s : Nat} (hw : h + s = w) {f : α → Nat} {L : List α}
    (hf : ∀ x ∈ L, f x < 2 ^ w) :
    pack w (L.map f) &&& pack w (L.map fun _ => 2 ^ h * (2 ^ s - 1)) =
      pack w (L.map fun x => 2 ^ h * (f x / 2 ^ h)) := by
  induction L with
  | nil => simp
  | cons a L ih =>
    have ha := hf a (by simp)
    have hL := ih fun x hx => hf x (by simp [hx])
    have mask : 2 ^ h * (2 ^ s - 1) < 2 ^ w := by
      rw [← hw, Nat.pow_add]
      exact Nat.mul_lt_mul_of_pos_left (Nat.sub_lt (Nat.two_pow_pos s) (by decide))
        (Nat.two_pow_pos h)
    have small : f a / 2 ^ h < 2 ^ s := by
      rw [Nat.div_lt_iff_lt_mul (Nat.two_pow_pos h), ← Nat.pow_add, Nat.add_comm s, hw]
      exact ha
    simp only [List.map_cons, pack_cons]
    have low : (f a + 2 ^ w * pack w (L.map f)) &&& 2 ^ h * (2 ^ s - 1) =
        2 ^ h * (f a / 2 ^ h) := by
      rw [and_high, ← Nat.shiftRight_eq_div_pow, shiftRight_add _ _ (by omega),
        Nat.and_two_pow_sub_one_eq_mod, show w - h = s by omega, Nat.add_mul_mod_self_left,
        Nat.mod_eq_of_lt small]
    rw [and_add mask, low, shiftRight_add _ _ (Nat.le_refl _), Nat.sub_self, Nat.pow_zero,
      Nat.one_mul, Nat.div_eq_of_lt ha, Nat.zero_add, hL]

/-- Fields of each lane side by side. -/
theorem pack_or {h : Nat} {f g : α → Nat} {L : List α} (hf : ∀ x ∈ L, f x < 2 ^ h)
    (hg : ∀ x ∈ L, 2 ^ h * g x < 2 ^ w) (hw : h ≤ w) :
    pack w (L.map f) ||| pack w (L.map fun x => 2 ^ h * g x) =
      pack w (L.map fun x => f x + 2 ^ h * g x) := by
  induction L with
  | nil => simp
  | cons a L ih =>
    have ha := hf a (by simp)
    have hL := ih (fun x hx => hf x (by simp [hx])) fun x hx => hg x (by simp [hx])
    have le : 2 ^ h ≤ 2 ^ w := Nat.pow_le_pow_right (by decide) hw
    simp only [List.map_cons, pack_cons]
    rw [or_add (by omega) (hg a (by simp)), hL, Nat.or_comm (f a),
      ← Nat.two_pow_add_eq_or_of_lt ha, Nat.add_comm (2 ^ h * g a)]

/-! ## Lanes of half the width -/

theorem range_pairs {β : Type} (D : Nat → β) (n : Nat) :
    ((List.range n).flatMap fun i => [D (2 * i), D (2 * i + 1)]) = (List.range (2 * n)).map D := by
  induction n with
  | zero => rfl
  | succ n ih =>
    have two : 2 * (n + 1) = 2 * n + 1 + 1 := by omega
    rw [List.range_succ, List.flatMap_append, ih, two, List.range_succ, List.range_succ]
    simp

theorem pack_split (D : Nat → Nat) (n : Nat) :
    pack (w + w) ((List.range n).map fun i => D (2 * i) + 2 ^ w * D (2 * i + 1)) =
      pack w ((List.range (2 * n)).map D) := by
  rw [← range_pairs]
  induction List.range n with
  | nil => rfl
  | cons a L ih =>
    simp only [List.map_cons, List.flatMap_cons, List.cons_append, List.nil_append, pack_cons, ih,
      Nat.pow_add, Nat.mul_add, Nat.mul_assoc, Nat.add_assoc]

/-! ## Digits -/

/-- The digits of a number below a power of the base. -/
theorem ofDigits_range (b n v : Nat) :
    Nat.ofDigits b ((List.range n).map fun i => v / b ^ i % b) = v % b ^ n := by
  induction n generalizing v with
  | zero => simp [Nat.mod_one]
  | succ n ih =>
    have tail : (List.range n).map (fun i => v / b ^ (i + 1) % b) =
        (List.range n).map fun i => v / b / b ^ i % b := by
      apply List.map_congr_left
      intro i _
      rw [Nat.pow_succ', Nat.div_div_eq_div_mul]
    rw [List.range_succ_eq_map, List.map_cons, List.map_map, Nat.ofDigits_cons]
    simp only [Function.comp_def, Nat.succ_eq_add_one, tail, ih, Nat.pow_zero, Nat.div_one]
    rw [Nat.pow_succ', Nat.mod_mul]

/-- Digit `i` of the number with given digits. -/
theorem ofDigits_digit {b n : Nat} {D : Nat → Nat} (h : ∀ i < n, D i < b) {i : Nat} (hi : i < n) :
    Nat.ofDigits b ((List.range n).map D) / b ^ i % b = D i := by
  induction n generalizing D i with
  | zero => omega
  | succ n ih =>
    have first := h 0 (Nat.succ_pos n)
    rw [List.range_succ_eq_map, List.map_cons, List.map_map, Nat.ofDigits_cons]
    cases i with
    | zero => rw [Nat.pow_zero, Nat.div_one, Nat.add_mul_mod_self_left, Nat.mod_eq_of_lt first]
    | succ i =>
      rw [Nat.pow_succ', ← Nat.div_div_eq_div_mul, Nat.add_mul_div_left _ _ (by omega),
        Nat.div_eq_of_lt first, Nat.zero_add]
      exact ih (fun j hj => h (j + 1) (by omega)) (by omega)

/-- Read in a larger base, the digits of numbers compare as the numbers do. -/
theorem ofDigits_lt {b B n v v' : Nat} (hb : 0 < b) (larger : b ≤ B) (hv' : v' < b ^ n)
    (h : v < v') : Nat.ofDigits B ((List.range n).map fun i => v / b ^ i % b) <
      Nat.ofDigits B ((List.range n).map fun i => v' / b ^ i % b) := by
  induction n generalizing v v' with
  | zero =>
    rw [Nat.pow_zero] at hv'
    omega
  | succ n ih =>
    have first (v : Nat) : Nat.ofDigits B ((List.range (n + 1)).map fun i => v / b ^ i % b) =
        v % b + B * Nat.ofDigits B ((List.range n).map fun i => v / b / b ^ i % b) := by
      rw [List.range_succ_eq_map, List.map_cons, List.map_map, Nat.ofDigits_cons, Nat.pow_zero,
        Nat.div_one]
      simp only [Function.comp_def, Nat.succ_eq_add_one, Nat.pow_succ', Nat.div_div_eq_div_mul]
    rw [first, first]
    have low := Nat.mod_lt v hb
    rcases Nat.lt_or_ge (v / b) (v' / b) with below | same
    · have step := Nat.mul_le_mul_left B
        (Nat.succ_le_of_lt (ih (Nat.div_lt_of_lt_mul (Nat.pow_succ' ▸ hv')) below))
      rw [Nat.mul_succ] at step
      omega
    · -- The higher digits agree, so the lowest one decides.
      have same : v / b = v' / b := Nat.le_antisymm (Nat.div_le_div_right h.le) same
      have sum := Nat.mod_add_div v b
      have sum' := Nat.mod_add_div v' b
      rw [same] at sum ⊢
      omega

/-! ## Words -/

/-- The word `x` has `n` lanes of `w` bits, and lane `i` holds `f i`. -/
structure Packed {N : Nat} (w n : Nat) (f : Nat → Nat) (x : BitVec N) : Prop where
  width : w * n = N
  value : x.toNat = pack w ((List.range n).map f)
  small : ∀ i < n, f i < 2 ^ w

namespace Packed

variable {N n : Nat} {f g : Nat → Nat} {x y m : BitVec N}

theorem congr (h : Packed w n f x) (same : ∀ i < n, f i = g i) : Packed w n g x where
  width := h.width
  value := h.value.trans (pack_congr fun i hi => same i (List.mem_range.1 hi))
  small i hi := same i hi ▸ h.small i hi

/-- Lanes that stay within their width make a word. -/
theorem bound (width : w * n = N) (small : ∀ i < n, f i < 2 ^ w) :
    pack w ((List.range n).map f) < 2 ^ N := by
  have lt := pack_lt (w := w) (L := (List.range n).map f) fun a ha => by
    obtain ⟨i, hi, rfl⟩ := List.mem_map.1 ha
    exact small i (List.mem_range.1 hi)
  rwa [List.length_map, List.length_range, width] at lt

theorem add (h : Packed w n f x) (h' : Packed w n g y) (small : ∀ i < n, f i + g i < 2 ^ w) :
    Packed w n (fun i => f i + g i) (x + y) where
  width := h.width
  value := by
    rw [BitVec.toNat_add, h.value, h'.value, pack_add, Nat.mod_eq_of_lt (bound h.width small)]
  small := small

theorem mul (h : Packed w n f x) (c : BitVec N) (small : ∀ i < n, f i * c.toNat < 2 ^ w) :
    Packed w n (fun i => f i * c.toNat) (x * c) where
  width := h.width
  value := by
    rw [BitVec.toNat_mul, h.value, pack_mul, Nat.mod_eq_of_lt (bound h.width small)]
  small := small

theorem sub (h : Packed w n f x) (h' : Packed w n g y) (le : ∀ i < n, g i ≤ f i) :
    Packed w n (fun i => f i - g i) (x - y) where
  width := h.width
  value := by
    have le' : ∀ i ∈ List.range n, g i ≤ f i := fun i hi => le i (List.mem_range.1 hi)
    have room : y.toNat ≤ x.toNat := by
      rw [h.value, h'.value]
      exact pack_le le'
    rw [BitVec.toNat_sub_of_le (BitVec.le_def.2 room), h.value, h'.value, pack_sub le']
  small i hi := Nat.lt_of_le_of_lt (Nat.sub_le _ _) (h.small i hi)

theorem shiftLeft (h : Packed w n f x) (k : Nat) (small : ∀ i < n, f i * 2 ^ k < 2 ^ w) :
    Packed w n (fun i => f i * 2 ^ k) (x <<< k) where
  width := h.width
  value := by
    rw [BitVec.toNat_shiftLeft, Nat.shiftLeft_eq, h.value, pack_mul,
      Nat.mod_eq_of_lt (bound h.width small)]
  small := small

/-- `s` bits of each lane, from bit `o` on. -/
theorem field (h : Packed w n f x) {o s : Nat} (fits : o + s ≤ w)
    (mask : m.toNat = pack w ((List.range n).map fun _ => 2 ^ s - 1)) :
    Packed w n (fun i => f i / 2 ^ o % 2 ^ s) (x >>> o &&& m) where
  width := h.width
  value := by
    rw [BitVec.toNat_and, BitVec.toNat_ushiftRight, h.value, mask]
    exact pack_shiftRight_and fits fun i hi => h.small i (List.mem_range.1 hi)
  small i hi := by
    have le : 2 ^ s ≤ 2 ^ w := Nat.pow_le_pow_right (by decide) (by omega)
    exact Nat.lt_of_lt_of_le (Nat.mod_lt _ (Nat.two_pow_pos s)) le

/-- The bits of each lane from bit `k` on, in their place. -/
theorem high (h : Packed w n f x) {k s : Nat} (fits : k + s = w)
    (mask : m.toNat = pack w ((List.range n).map fun _ => 2 ^ k * (2 ^ s - 1))) :
    Packed w n (fun i => 2 ^ k * (f i / 2 ^ k)) (x &&& m) where
  width := h.width
  value := by
    rw [BitVec.toNat_and, h.value, mask]
    exact pack_and_high fits fun i hi => h.small i (List.mem_range.1 hi)
  small i hi := Nat.lt_of_le_of_lt (Nat.mul_div_le _ _) (h.small i hi)

/-- Two fields of each lane side by side. -/
theorem or {k : Nat} (h : Packed w n f x) (h' : Packed w n (fun i => 2 ^ k * g i) y)
    (low : ∀ i < n, f i < 2 ^ k) (fits : k ≤ w) :
    Packed w n (fun i => f i + 2 ^ k * g i) (x ||| y) where
  width := h.width
  value := by
    rw [BitVec.toNat_or, h.value, h'.value]
    exact pack_or (fun i hi => low i (List.mem_range.1 hi))
      (fun i hi => h'.small i (List.mem_range.1 hi)) fits
  small i hi := by
    have behind := h'.small i hi
    have sum := Nat.or_lt_two_pow (h.small i hi) behind
    rwa [Nat.or_comm, ← Nat.two_pow_add_eq_or_of_lt (low i hi), Nat.add_comm] at sum

/-- Each lane as two of half the width. -/
theorem split {D : Nat → Nat} (h : Packed (w + w) n (fun i => D (2 * i) + 2 ^ w * D (2 * i + 1)) x)
    (small : ∀ i < 2 * n, D i < 2 ^ w) : Packed w (2 * n) D x where
  width := by
    rw [← h.width, Nat.add_mul, Nat.two_mul, Nat.mul_add]
  value := h.value.trans (pack_split D n)
  small := small

/-- Two lanes as one of twice the width. -/
theorem join {D : Nat → Nat} (h : Packed w (2 * n) D x) :
    Packed (w + w) n (fun i => D (2 * i) + 2 ^ w * D (2 * i + 1)) x where
  width := by
    rw [← h.width, Nat.add_mul, Nat.two_mul, Nat.mul_add]
  value := h.value.trans (pack_split D n).symm
  small i hi := by
    have first := h.small (2 * i) (by omega)
    have second := h.small (2 * i + 1) (by omega)
    have step : 2 ^ w * (D (2 * i + 1) + 1) ≤ 2 ^ w * 2 ^ w := Nat.mul_le_mul_left _ second
    rw [Nat.mul_succ] at step
    rw [Nat.pow_add]
    omega

/-- The upper bits of the lanes in even places. -/
theorem even {D : Nat → Nat} (h : Packed w (2 * n) D x) {o s : Nat} (hw : o + s = w)
    (mask : m.toNat = pack (w + w) ((List.range n).map fun _ => 2 ^ s - 1)) :
    Packed (w + w) n (fun i => D (2 * i) / 2 ^ o) (x >>> o &&& m) := by
  refine (h.join.field (by omega) mask).congr fun i hi => ?_
  have lane := h.small (2 * i) (by omega)
  have small : D (2 * i) / 2 ^ o < 2 ^ s := by
    rw [Nat.div_lt_iff_lt_mul (Nat.two_pow_pos o), ← Nat.pow_add, Nat.add_comm s, hw]
    exact lane
  rw [← hw, Nat.pow_add, Nat.mul_assoc, Nat.add_mul_div_left _ _ (Nat.two_pow_pos o),
    Nat.add_mul_mod_self_left, Nat.mod_eq_of_lt small]

/-- The upper bits of the lanes in odd places. -/
theorem odd {D : Nat → Nat} (h : Packed w (2 * n) D x) {o s : Nat} (hw : o + s = w)
    (mask : m.toNat = pack (w + w) ((List.range n).map fun _ => 2 ^ s - 1)) :
    Packed (w + w) n (fun i => D (2 * i + 1) / 2 ^ o) (x >>> (w + o) &&& m) := by
  refine (h.join.field (by omega) mask).congr fun i hi => ?_
  have first := h.small (2 * i) (by omega)
  have second := h.small (2 * i + 1) (by omega)
  have small : D (2 * i + 1) / 2 ^ o < 2 ^ s := by
    rw [Nat.div_lt_iff_lt_mul (Nat.two_pow_pos o), ← Nat.pow_add, Nat.add_comm s, hw]
    exact second
  rw [Nat.pow_add, ← Nat.div_div_eq_div_mul, Nat.add_mul_div_left _ _ (Nat.two_pow_pos w),
    Nat.div_eq_of_lt first, Nat.zero_add, Nat.mod_eq_of_lt small]

/-- A word is its only lane. -/
theorem single (h : x.toNat = f 0) : Packed N 1 f x where
  width := Nat.mul_one N
  value := h.trans (pack_singleton (f 0)).symm
  small i hi := by
    obtain rfl : i = 0 := by omega
    exact h ▸ x.isLt

theorem shiftRight_single (h : Packed w 1 f x) (o : Nat) :
    Packed w 1 (fun i => f i / 2 ^ o) (x >>> o) where
  width := h.width
  value := by
    rw [BitVec.toNat_ushiftRight, Nat.shiftRight_eq_div_pow, h.value]
    exact (congrArg (· / 2 ^ o) (pack_singleton (f 0))).trans (pack_singleton _).symm
  small i hi := Nat.lt_of_le_of_lt (Nat.div_le_self _ _) (h.small i hi)

/-- Words with the same lanes are the same. -/
theorem unique (h : Packed w n f x) (h' : Packed w n f y) : x = y :=
  BitVec.eq_of_toNat_eq (h.value.trans h'.value.symm)

/-- Every word is packed of its digits. -/
theorem digits (x : BitVec N) (width : w * n = N) :
    Packed w n (fun i => x.toNat / (2 ^ w) ^ i % 2 ^ w) x where
  width := width
  value := by
    rw [pack, ofDigits_range, ← Nat.pow_mul, width, Nat.mod_eq_of_lt x.isLt]
  small i _ := Nat.mod_lt _ (Nat.two_pow_pos w)

/-- The lanes are the digits. -/
theorem lane (h : Packed w n f x) {i : Nat} (hi : i < n) :
    x.toNat / (2 ^ w) ^ i % 2 ^ w = f i := by
  rw [h.value, pack, ofDigits_digit h.small hi]

end Packed

end Lib.Lanes
