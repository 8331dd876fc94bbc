import Coter.Encoding.Bcd

/-!
# Decimal digits as nibbles

The conversions halve the lanes of a word step by step: `v` as one lane of sixteen
digits, two of eight, four of four, eight of two, and sixteen of one.

* `spread`, `gather`: one step, in either direction;
* `hundreds_lanes`, `tens_lanes`: the multiplications by a reciprocal are divisions;
* `encode_u64_packed`, `decode_u64_value` and their versions of 32 bits;
* `conversions`: the laws of the conversions.
-/

namespace Coter.Bcd

open Lib.Lanes

/-- Nibble `i` of a word. -/
def nibble {N : Nat} (bcd : BitVec N) (i : Nat) : Nat := bcd.toNat / 16 ^ i % 16

/-- The `i`-th group of `s` decimal digits of a number. -/
def group (s v i : Nat) : Nat := v / (10 ^ s) ^ i % 10 ^ s

theorem group_lt (s v i : Nat) : group s v i < 10 ^ s := Nat.mod_lt _ (Nat.pow_pos (by decide))

theorem group_zero {s v : Nat} (h : v < 10 ^ s) : group s v 0 = v := by
  rw [group, Nat.pow_zero, Nat.div_one, Nat.mod_eq_of_lt h]

/-- A group is two of half its size. -/
theorem group_double (s v i : Nat) :
    group (s + s) v i = group s v (2 * i) + 10 ^ s * group s v (2 * i + 1) := by
  have power : (10 ^ (s + s)) ^ i = (10 ^ s) ^ (2 * i) := by
    rw [← Nat.pow_mul, ← Nat.pow_mul, ← Nat.two_mul, Nat.mul_assoc, Nat.mul_left_comm]
  simp only [group]
  rw [power, Nat.pow_add, Nat.mod_mul, Nat.pow_succ _ (2 * i), Nat.div_div_eq_div_mul]

theorem group_div (s v i : Nat) : group (s + s) v i / 10 ^ s = group s v (2 * i + 1) := by
  rw [group_double, Nat.add_mul_div_left _ _ (Nat.pow_pos (by decide)),
    Nat.div_eq_of_lt (group_lt ..), Nat.zero_add]

/-! ## One step -/

section

variable {N w n s v : Nat} {x y c : BitVec N}

/-- Adding the quotient of each lane as often as the lanes are wider than the digits moves
it into a lane of its own. -/
theorem spread (h : Packed (w + w) n (group (s + s) v) x)
    (q : Packed (w + w) n (fun i => group (s + s) v i / 10 ^ s) y)
    (hc : c.toNat = 2 ^ w - 10 ^ s) (fits : 10 ^ s ≤ 2 ^ w) :
    Packed w (2 * n) (group s v) (x + y * c) := by
  have small (i : Nat) : group s v i < 2 ^ w := Nat.lt_of_lt_of_le (group_lt ..) fits
  have value (i : Nat) : group (s + s) v i + group s v (2 * i + 1) * c.toNat =
      group s v (2 * i) + 2 ^ w * group s v (2 * i + 1) := by
    rw [group_double, hc, Nat.add_assoc, Nat.mul_comm _ (2 ^ w - _), ← Nat.add_mul,
      Nat.add_sub_cancel' fits]
  have room (i : Nat) : group s v (2 * i) + 2 ^ w * group s v (2 * i + 1) < 2 ^ (w + w) := by
    have step : 2 ^ w * (group s v (2 * i + 1) + 1) ≤ 2 ^ w * 2 ^ w :=
      Nat.mul_le_mul_left _ (small _)
    have first := small (2 * i)
    rw [Nat.mul_succ] at step
    rw [Nat.pow_add]
    omega
  have quotient := q.congr (g := fun i => group s v (2 * i + 1)) fun i _ => group_div ..
  have product := quotient.mul c fun i _ => Nat.lt_of_le_of_lt (Nat.le_add_left _ _)
    ((value i).trans_lt (room i))
  have sum := h.add product fun i _ => (value i).trans_lt (room i)
  exact (sum.congr fun i _ => value i).split fun i _ => small i

/-- And taking it away again joins the two lanes. -/
theorem gather (h : Packed w (2 * n) (group s v) x)
    (q : Packed (w + w) n (fun i => group s v (2 * i + 1)) y)
    (hc : c.toNat = 2 ^ w - 10 ^ s) (fits : 10 ^ s ≤ 2 ^ w) :
    Packed (w + w) n (group (s + s) v) (x - y * c) := by
  have behind (i : Nat) : group s v (2 * i + 1) * c.toNat ≤ 2 ^ w * group s v (2 * i + 1) := by
    rw [hc, Nat.mul_comm]
    exact Nat.mul_le_mul_right _ (Nat.sub_le _ _)
  have joined := h.join
  have product := q.mul c fun i hi => by
    have lane := joined.small i hi
    have le := behind i
    omega
  have difference := joined.sub product fun i _ => Nat.le_trans (behind i) (Nat.le_add_left _ _)
  refine difference.congr fun i _ => ?_
  have split : 2 ^ w * group s v (2 * i + 1) =
      10 ^ s * group s v (2 * i + 1) + group s v (2 * i + 1) * c.toNat := by
    rw [hc, Nat.mul_comm _ (2 ^ w - _), ← Nat.add_mul, Nat.add_sub_cancel' fits]
  rw [group_double, split, ← Nat.add_assoc, Nat.add_sub_cancel]

/-- The upper half of each lane. -/
theorem upper {D : Nat → Nat} (h : Packed w (2 * n) D x)
    (mask : c.toNat = pack (w + w) ((List.range n).map fun _ => 2 ^ w - 1)) :
    Packed (w + w) n (fun i => D (2 * i + 1)) (x >>> w &&& c) :=
  (h.odd (o := 0) (Nat.zero_add w) mask).congr fun _ _ => Nat.div_one _

/-- The upper half of the only lane. -/
theorem upper_single {D : Nat → Nat} (h : Packed w (2 * 1) D x) :
    Packed (w + w) 1 (fun i => D (2 * i + 1)) (x >>> w) := by
  refine (h.join.shiftRight_single w).congr fun i hi => ?_
  have first := h.small (2 * i) (by omega)
  rw [Nat.add_mul_div_left _ _ (Nat.two_pow_pos w), Nat.div_eq_of_lt first, Nat.zero_add]

end

/-! ## Division by a reciprocal -/

section

variable {N n : Nat} {D : Nat → Nat} {x m k a b c : BitVec N}

theorem hundredth {d : Nat} (h : d < 10000) : d / 2 ^ 2 * 1311 / 2 ^ 15 = d / 100 := by
  have reciprocal : d / 2 ^ 2 * 1311 / 2 ^ 15 = d / 2 ^ 2 / 25 := by omega
  omega

theorem tenth {d : Nat} (h : d < 100) : d / 2 ^ 1 * 52 / 2 ^ 8 = d / 10 := by
  have reciprocal : d / 2 ^ 1 * 52 / 2 ^ 8 = d / 2 ^ 1 / 5 := by omega
  omega

/-- The lanes in even places, before the last shift. -/
theorem hundreds_even (h : Packed 16 (2 * n) D x) (hD : ∀ i < 2 * n, D i < 10000)
    (mask : m.toNat = pack 32 ((List.range n).map fun _ => 2 ^ 14 - 1)) (hc : c.toNat = 1311) :
    Packed 32 n (fun i => D (2 * i) / 2 ^ 2 * 1311) ((x >>> 2 &&& m) * c) := by
  have lanes := h.even (o := 2) (s := 14) (by decide) mask
  refine (lanes.mul c fun i hi => ?_).congr fun i _ => by rw [hc]
  have := hD (2 * i) (by omega)
  rw [hc]
  omega

theorem hundreds_odd (h : Packed 16 (2 * n) D x) (hD : ∀ i < 2 * n, D i < 10000)
    (mask : m.toNat = pack 32 ((List.range n).map fun _ => 2 ^ 14 - 1))
    (mask' : k.toNat = pack 32 ((List.range n).map fun _ => 2 ^ 16 * (2 ^ 16 - 1)))
    (hc : c.toNat = 1311) :
    Packed 32 n (fun i => 2 ^ 16 * (D (2 * i + 1) / 100))
      (((x >>> 18 &&& m) * c) <<< 1 &&& k) := by
  have lanes := h.odd (o := 2) (s := 14) (by decide) mask
  have product := lanes.mul c fun i hi => by
    have := hD (2 * i + 1) (by omega)
    rw [hc]
    omega
  have shifted := product.shiftLeft 1 fun i hi => by
    have := hD (2 * i + 1) (by omega)
    rw [hc]
    omega
  refine (shifted.high (k := 16) (s := 16) (by decide) mask').congr fun i hi => ?_
  have last := hundredth (hD (2 * i + 1) (by omega))
  rw [hc, ← last]
  omega

/-- The two halves of each lane together. -/
theorem hundreds (low : Packed 32 n (fun i => D (2 * i) / 100) a)
    (high : Packed 32 n (fun i => 2 ^ 16 * (D (2 * i + 1) / 100)) b)
    (hD : ∀ i < 2 * n, D i < 10000) : Packed 16 (2 * n) (fun i => D i / 100) (a ||| b) := by
  have small (i : Nat) (hi : i < 2 * n) : D i / 100 < 2 ^ 16 := by
    have := hD i hi
    omega
  exact (low.or high (fun i hi => small _ (by omega)) (by decide)).split small

/-- `52 / 2 ^ 8` for one in five, in all the lanes. -/
theorem tens (h : Packed 8 (2 * n) D x) (hD : ∀ i < 2 * n, D i < 100)
    (mask : m.toNat = pack 16 ((List.range n).map fun _ => 2 ^ 7 - 1))
    (low : a.toNat = pack 16 ((List.range n).map fun _ => 2 ^ 8 - 1))
    (high : b.toNat = pack 16 ((List.range n).map fun _ => 2 ^ 8 * (2 ^ 8 - 1)))
    (hc : c.toNat = 52) :
    Packed 8 (2 * n) (fun i => D i / 10)
      ((((x >>> 1 &&& m) * c) >>> 8 &&& a) ||| ((x >>> 9 &&& m) * c &&& b)) := by
  have even := (h.even (o := 1) (s := 7) (by decide) mask).mul c fun i hi => by
    have := hD (2 * i) (by omega)
    rw [hc]
    omega
  have odd := (h.odd (o := 1) (s := 7) (by decide) mask).mul c fun i hi => by
    have := hD (2 * i + 1) (by omega)
    rw [hc]
    omega
  have below := (even.field (o := 8) (s := 8) (by decide) low).congr
    (g := fun i => D (2 * i) / 10) fun i hi => by
      have lane := hD (2 * i) (by omega)
      rw [hc, tenth lane]
      omega
  have above := (odd.high (k := 8) (s := 8) (by decide) high).congr
    (g := fun i => 2 ^ 8 * (D (2 * i + 1) / 10)) fun i hi => by
      rw [hc, tenth (hD (2 * i + 1) (by omega))]
  have small (i : Nat) (hi : i < 2 * n) : D i / 10 < 2 ^ 8 := by
    have := hD i hi
    omega
  exact (below.or above (fun i hi => small _ (by omega)) (by decide)).split small

end

/-! ## The conversions -/

theorem ten_thousands {f : Nat → Nat} {x : BitVec 64} (h : Packed 32 2 f x) :
    Packed 32 2 (fun i => f i / 10000)
      (((x >>> 32).setWidth 32 / 10000 : BitVec 32).setWidth 64 <<< 32 |||
        (x.setWidth 32 / 10000 : BitVec 32).setWidth 64) where
  width := rfl
  value := by
    have first := h.small 0 (by decide)
    have second := h.small 1 (by decide)
    have value : x.toNat = f 0 + 2 ^ 32 * f 1 := by
      rw [h.value]
      simp [List.range_succ, pack_cons]
    have high : ((x >>> 32).setWidth 32).toNat = f 1 := by
      rw [BitVec.toNat_setWidth, BitVec.toNat_ushiftRight, Nat.shiftRight_eq_div_pow, value]
      omega
    have low : (x.setWidth 32).toNat = f 0 := by
      rw [BitVec.toNat_setWidth, value]
      omega
    have small : f 0 / 10000 < 2 ^ 32 := by omega
    have shifted : f 1 / 10000 * 2 ^ 32 < 2 ^ 64 := by omega
    have wide : f 1 / 10000 < 2 ^ 64 := by omega
    have wide' : f 0 / 10000 < 2 ^ 64 := by omega
    simp only [BitVec.toNat_or, BitVec.toNat_shiftLeft, BitVec.toNat_setWidth, BitVec.toNat_udiv,
      high, low, Nat.shiftLeft_eq]
    rw [show (10000 : BitVec 32).toNat = 10000 from rfl, Nat.mod_eq_of_lt wide,
      Nat.mod_eq_of_lt shifted, Nat.mod_eq_of_lt wide', Nat.mul_comm, ← Nat.two_pow_add_eq_or_of_lt small]
    simp [List.range_succ, pack_cons, Nat.add_comm]
  small i hi := by
    have lane := h.small i hi
    omega

theorem encode_u64_packed (bin : BitVec 64) :
    Packed 4 16 (group 1 (bin.toNat % 10 ^ 16)) (encode_u64 bin) := by
  have reduced : bin.toNat % 10 ^ 16 < 10 ^ 16 := Nat.mod_lt _ (by decide)
  have value : (bin % 10000000000000000).toNat = bin.toNat % 10 ^ 16 := BitVec.toNat_umod
  generalize hv : bin.toNat % 10 ^ 16 = v at reduced value ⊢
  have sixteen : Packed 64 1 (group (8 + 8) v) (bin % 10000000000000000) :=
    Packed.single (value.trans (group_zero (s := 16) reduced).symm)
  have half : Packed 64 1 (fun i => group (8 + 8) v i / 10 ^ 8)
      (bin % 10000000000000000 / 100000000) := by
    refine Packed.single ?_
    rw [BitVec.toNat_udiv, value, group_zero (s := 16) reduced]
    rfl
  have eight := spread (w := 32) (s := 8) (c := 4194967296) sixteen half rfl (by decide)
  have four := spread (w := 16) (s := 4) (c := 55536) eight (ten_thousands eight) rfl (by decide)
  have lanes (i : Nat) (_ : i < 2 * 2) : group 4 v i < 10000 := group_lt 4 v i
  have even := hundreds_even (n := 2) (c := 1311) (m := 0x00003FFF00003FFF) four lanes rfl rfl
  have low := even.field (o := 15) (s := 16) (m := 0x0000FFFF0000FFFF) (by decide) rfl
  have high := hundreds_odd (n := 2) (c := 1311) (m := 0x00003FFF00003FFF)
    (k := 0xFFFF0000FFFF0000) four lanes rfl rfl rfl
  have quotient := hundreds (low.congr fun i hi => by
    have lane := lanes (2 * i) (by omega)
    rw [hundredth lane]
    exact Nat.mod_eq_of_lt (by omega)) high lanes
  have two := spread (w := 8) (s := 2) (c := 156) four quotient rfl (by decide)
  have pairs (i : Nat) (_ : i < 2 * 4) : group 2 v i < 100 := group_lt 2 v i
  have digit := tens (n := 4) (c := 52) (m := 0x007F007F007F007F) (a := 0x00FF00FF00FF00FF)
    (b := 0xFF00FF00FF00FF00) two pairs rfl rfl rfl rfl
  exact spread (w := 4) (s := 1) (c := 6) two digit rfl (by decide)

theorem encode_u32_packed (bin : BitVec 32) :
    Packed 4 8 (group 1 (bin.toNat % 10 ^ 8)) (encode_u32 bin) := by
  have reduced : bin.toNat % 10 ^ 8 < 10 ^ 8 := Nat.mod_lt _ (by decide)
  have value : (bin % 100000000).toNat = bin.toNat % 10 ^ 8 := BitVec.toNat_umod
  generalize hv : bin.toNat % 10 ^ 8 = v at reduced value ⊢
  have eight : Packed 32 1 (group (4 + 4) v) (bin % 100000000) :=
    Packed.single (value.trans (group_zero (s := 8) reduced).symm)
  have half : Packed 32 1 (fun i => group (4 + 4) v i / 10 ^ 4) (bin % 100000000 / 10000) := by
    refine Packed.single ?_
    rw [BitVec.toNat_udiv, value, group_zero (s := 8) reduced]
    rfl
  have four := spread (w := 16) (s := 4) (c := 55536) eight half rfl (by decide)
  have lanes (i : Nat) (_ : i < 2 * 1) : group 4 v i < 10000 := group_lt 4 v i
  have even := hundreds_even (n := 1) (c := 1311) (m := 0x00003FFF) four lanes rfl rfl
  have low := even.shiftRight_single 15
  have high := hundreds_odd (n := 1) (c := 1311) (m := 0x00003FFF) (k := 0xFFFF0000) four lanes
    rfl rfl rfl
  have quotient := hundreds (low.congr fun i hi => hundredth (lanes (2 * i) (by omega))) high lanes
  have two := spread (w := 8) (s := 2) (c := 156) four quotient rfl (by decide)
  have pairs (i : Nat) (_ : i < 2 * 2) : group 2 v i < 100 := group_lt 2 v i
  have digit := tens (n := 2) (c := 52) (m := 0x007F007F) (a := 0x00FF00FF) (b := 0xFF00FF00) two
    pairs rfl rfl rfl rfl
  exact spread (w := 4) (s := 1) (c := 6) two digit rfl (by decide)

theorem decode_u64_value {v : Nat} {bcd : BitVec 64} (hv : v < 10 ^ 16)
    (h : Packed 4 16 (group 1 v) bcd) : (decode_u64 bcd).toNat = v := by
  have two := gather (w := 4) (s := 1) (n := 8) (c := 6) h
    (upper (c := 0x0F0F0F0F0F0F0F0F) h rfl) rfl (by decide)
  have four := gather (w := 8) (s := 2) (n := 4) (c := 156) two
    (upper (c := 0x00FF00FF00FF00FF) two rfl) rfl (by decide)
  have eight := gather (w := 16) (s := 4) (n := 2) (c := 55536) four
    (upper (c := 0x0000FFFF0000FFFF) four rfl) rfl (by decide)
  have sixteen := gather (w := 32) (s := 8) (n := 1) (c := 4194967296) eight (upper_single eight)
    rfl (by decide)
  have value := sixteen.value
  rw [show List.map (group (8 + 8) v) (List.range 1) = [group 16 v 0] from rfl, pack_singleton,
    group_zero hv] at value
  exact value

theorem decode_u32_value {v : Nat} {bcd : BitVec 32} (hv : v < 10 ^ 8)
    (h : Packed 4 8 (group 1 v) bcd) : (decode_u32 bcd).toNat = v := by
  have two := gather (w := 4) (s := 1) (n := 4) (c := 6) h (upper (c := 0x0F0F0F0F) h rfl) rfl
    (by decide)
  have four := gather (w := 8) (s := 2) (n := 2) (c := 156) two (upper (c := 0x00FF00FF) two rfl)
    rfl (by decide)
  have eight := gather (w := 16) (s := 4) (n := 1) (c := 55536) four (upper_single four) rfl
    (by decide)
  have value := eight.value
  rw [show List.map (group (4 + 4) v) (List.range 1) = [group 8 v 0] from rfl, pack_singleton,
    group_zero hv] at value
  exact value

/-! ## Words that pass the check -/

theorem nibble_add {N M : Nat} (bcd : BitVec N) (part : BitVec M) (k i : Nat) (hi : 4 * (i + 1) ≤ M)
    (h : part = (bcd >>> (4 * k)).setWidth M) : nibble part i = nibble bcd (k + i) := by
  have split : 2 ^ M = 16 ^ i * (16 * 2 ^ (M - 4 * (i + 1))) := by
    rw [show (16 : Nat) = 2 ^ 4 from rfl, ← Nat.pow_mul, ← Nat.pow_add, ← Nat.pow_add]
    congr 1
    omega
  rw [nibble, nibble, h, BitVec.toNat_setWidth, BitVec.toNat_ushiftRight,
    Nat.shiftRight_eq_div_pow, split, Nat.mod_mul_right_div_self, Nat.mod_mul_right_mod,
    Nat.pow_mul, Nat.div_div_eq_div_mul, ← Nat.pow_add]

theorem is_valid_u8_iff (bcd : BitVec 8) : is_valid_u8 bcd ↔ ∀ i < 2, nibble bcd i ≤ 9 := by
  have small := bcd.isLt
  have low : bcd &&& 0x0F ≤ 9 ↔ nibble bcd 0 ≤ 9 := by
    rw [BitVec.le_def, BitVec.toNat_and, nibble, Nat.pow_zero, Nat.div_one]
    exact Iff.of_eq (congrArg (· ≤ 9) (Nat.and_two_pow_sub_one_eq_mod bcd.toNat 4))
  have high : bcd >>> 4 ≤ 9 ↔ nibble bcd 1 ≤ 9 := by
    rw [BitVec.le_def, BitVec.toNat_ushiftRight, Nat.shiftRight_eq_div_pow, nibble,
      Nat.mod_eq_of_lt (by omega)]
    rfl
  rw [is_valid_u8, Bool.and_eq_true, decide_eq_true_eq, decide_eq_true_eq, low, high]
  constructor
  · rintro ⟨first, second⟩ i hi
    obtain rfl | rfl : i = 0 ∨ i = 1 := by omega
    · exact first
    · exact second
  · intro all
    exact ⟨all 0 (by decide), all 1 (by decide)⟩

/-- A check of both halves of a word is one of all its nibbles. -/
theorem halves {N M k : Nat} {bcd : BitVec N} {low high : BitVec M} {a b : Bool} (hM : M = 4 * k)
    (hlow : low = (bcd >>> 0).setWidth M) (hhigh : high = (bcd >>> (4 * k)).setWidth M)
    (ha : a ↔ ∀ i < k, nibble low i ≤ 9) (hb : b ↔ ∀ i < k, nibble high i ≤ 9) :
    (a && b) = true ↔ ∀ i < k + k, nibble bcd i ≤ 9 := by
  have first (i : Nat) (hi : i < k) : nibble low i = nibble bcd i := by
    have := nibble_add bcd low 0 i (by omega) hlow
    rwa [Nat.zero_add] at this
  have second (i : Nat) (hi : i < k) : nibble high i = nibble bcd (k + i) :=
    nibble_add bcd high k i (by omega) hhigh
  rw [Bool.and_eq_true, ha, hb]
  constructor
  · rintro ⟨below, above⟩ i hi
    by_cases half : i < k
    · exact first i half ▸ below i half
    · have upper := above (i - k) (by omega)
      rwa [second _ (by omega), Nat.add_sub_cancel' (by omega)] at upper
  · intro all
    exact ⟨fun i hi => first i hi ▸ all i (by omega),
      fun i hi => second i hi ▸ all (k + i) (by omega)⟩

theorem is_valid_u16_iff (bcd : BitVec 16) : is_valid_u16 bcd ↔ ∀ i < 4, nibble bcd i ≤ 9 :=
  halves (k := 2) rfl rfl rfl (is_valid_u8_iff _) (is_valid_u8_iff _)

theorem is_valid_u32_iff (bcd : BitVec 32) : is_valid_u32 bcd ↔ ∀ i < 8, nibble bcd i ≤ 9 :=
  halves (k := 4) rfl rfl rfl (is_valid_u16_iff _) (is_valid_u16_iff _)

theorem is_valid_u64_iff (bcd : BitVec 64) : is_valid_u64 bcd ↔ ∀ i < 16, nibble bcd i ≤ 9 :=
  halves (k := 8) rfl rfl rfl (is_valid_u32_iff _) (is_valid_u32_iff _)

/-! ## The laws -/

/-- What the conversions of words of `n` nibbles do. -/
structure Laws {N : Nat} (n : Nat) (is_valid : BitVec N → Bool)
    (encode decode : BitVec N → BitVec N) : Prop where
  digit : ∀ bin, ∀ i < n, nibble (encode bin) i = bin.toNat % 10 ^ n / 10 ^ i % 10
  valid : ∀ bin, is_valid (encode bin)
  decode_encode : ∀ bin, (decode (encode bin)).toNat = bin.toNat % 10 ^ n
  encode_decode : ∀ bcd, is_valid bcd → encode (decode bcd) = bcd

/-- The laws follow from what the words are packed of. -/
theorem Laws.of_packed {N n : Nat} {is_valid : BitVec N → Bool}
    {encode decode : BitVec N → BitVec N} (width : 4 * n = N)
    (check : ∀ bcd, is_valid bcd ↔ ∀ i < n, nibble bcd i ≤ 9)
    (packed : ∀ bin, Packed 4 n (group 1 (bin.toNat % 10 ^ n)) (encode bin))
    (value : ∀ {v bcd}, v < 10 ^ n → Packed 4 n (group 1 v) bcd → (decode bcd).toNat = v) :
    Laws n is_valid encode decode := by
  have reduced (bin : BitVec N) : bin.toNat % 10 ^ n < 10 ^ n :=
    Nat.mod_lt _ (Nat.pow_pos (by decide))
  have digit (bin : BitVec N) (i : Nat) (hi : i < n) :
      nibble (encode bin) i = bin.toNat % 10 ^ n / 10 ^ i % 10 := (packed bin).lane hi
  refine ⟨digit, fun bin => (check _).2 fun i hi => ?_, fun bin => value (reduced bin) (packed bin),
    fun bcd valid => ?_⟩
  · rw [digit bin i hi]
    omega
  · -- The nibbles of a valid word are the digits of the number they stand for.
    have nine := (check bcd).1 valid
    let v := Nat.ofDigits 10 ((List.range n).map (nibble bcd))
    have digits (i : Nat) (hi : i < n) : nibble bcd i = group 1 v i :=
      (ofDigits_digit (fun j hj => Nat.lt_succ_of_le (nine j hj)) hi).symm
    have bound : v < 10 ^ n := by
      have lt := Nat.ofDigits_lt_base_pow_length (b := 10)
        (l := (List.range n).map (nibble bcd)) (by decide) fun x hx => by
          obtain ⟨i, hi, rfl⟩ := List.mem_map.1 hx
          exact Nat.lt_succ_of_le (nine i (List.mem_range.1 hi))
      rwa [List.length_map, List.length_range] at lt
    have word : Packed 4 n (group 1 v) bcd := (Packed.digits bcd width).congr digits
    have again := packed (decode bcd)
    rw [value bound word, Nat.mod_eq_of_lt bound] at again
    exact again.unique word

/-- **Binary-coded decimal.** The nibbles of an encoded number are its decimal digits, so no
lane has carried into the next, and the conversions undo each other, in both widths. -/
theorem conversions : Laws 16 is_valid_u64 encode_u64 decode_u64 ∧
    Laws 8 is_valid_u32 encode_u32 decode_u32 :=
  ⟨.of_packed rfl is_valid_u64_iff encode_u64_packed decode_u64_value,
    .of_packed rfl is_valid_u32_iff encode_u32_packed decode_u32_value⟩

end Coter.Bcd
