import Coter.Encoding.BcdRun

/-!
# Binary-coded decimal of every width

The conversions of 8 and 16 bits, and how those of one width agree with the next.

* `encode_u8_packed`, `encode_u16_packed`: what the two narrow words are packed of;
* `Laws.encode_append`, `Laws.decode_append`: a word is two of half its width;
* `Laws.lt_iff`: valid words compare as the numbers they stand for;
* `widths_agree`: all of this for the four widths.
-/

namespace Coter.Bcd

open Lib.Lanes

/-- `ct_bcd_encode_u8`. Operands of less than 32 bits are promoted. -/
def encode_u8 (bin : BitVec 8) : BitVec 8 :=
  let bin := bin.setWidth 32 % 100
  (bin + bin / 10 * 6).setWidth 8

/-- `ct_bcd_encode_u16`. -/
def encode_u16 (bin : BitVec 16) : BitVec 16 :=
  let bin : BitVec 16 := (bin.setWidth 32 % 10000).setWidth 16
  let bin : BitVec 16 := (bin.setWidth 32 + bin.setWidth 32 / 100 * 156).setWidth 16
  let lo8 : BitVec 16 := (bin.setWidth 32 >>> 1 &&& 0x007F).setWidth 16
  let hi8 : BitVec 16 := (bin.setWidth 32 >>> 9 &&& 0x007F).setWidth 16
  let tens : BitVec 16 :=
    ((lo8.setWidth 32 * 52) >>> 8 ||| (hi8.setWidth 32 * 52 &&& 0xFF00)).setWidth 16
  (bin.setWidth 32 + tens.setWidth 32 * 6).setWidth 16

/-- `ct_bcd_decode_u8`. -/
def decode_u8 (bcd : BitVec 8) : BitVec 8 :=
  (bcd.setWidth 32 - bcd.setWidth 32 >>> 4 * 6).setWidth 8

/-- `ct_bcd_decode_u16`. -/
def decode_u16 (bcd : BitVec 16) : BitVec 16 :=
  let bcd : BitVec 16 := (bcd.setWidth 32 - (bcd.setWidth 32 >>> 4 &&& 0x0F0F) * 6).setWidth 16
  (bcd.setWidth 32 - bcd.setWidth 32 >>> 8 * 156).setWidth 16

/-! ## Promotion -/

section

variable {n : Nat} (x y : BitVec n)

/-- A promoted word is the same number. -/
theorem toNat_promoted (small : n ≤ 32) : (x.setWidth 32).toNat = x.toNat :=
  BitVec.toNat_setWidth_of_le small

theorem promoted_ushiftRight (small : n ≤ 32) (k : Nat) :
    (x.setWidth 32 >>> k).setWidth n = x >>> k := by
  apply BitVec.eq_of_toNat_eq
  rw [BitVec.toNat_setWidth, BitVec.toNat_ushiftRight, toNat_promoted x small,
    ← BitVec.toNat_ushiftRight, Nat.mod_eq_of_lt (BitVec.isLt _)]

theorem promoted_udiv (small : n ≤ 32) : (x.setWidth 32 / y.setWidth 32).setWidth n = x / y := by
  apply BitVec.eq_of_toNat_eq
  rw [BitVec.toNat_setWidth, BitVec.toNat_udiv, toNat_promoted x small, toNat_promoted y small,
    ← BitVec.toNat_udiv, Nat.mod_eq_of_lt (BitVec.isLt _)]

theorem promoted_umod (small : n ≤ 32) : (x.setWidth 32 % y.setWidth 32).setWidth n = x % y := by
  apply BitVec.eq_of_toNat_eq
  rw [BitVec.toNat_setWidth, BitVec.toNat_umod, toNat_promoted x small, toNat_promoted y small,
    ← BitVec.toNat_umod, Nat.mod_eq_of_lt (BitVec.isLt _)]

theorem setWidth_sub {m : Nat} (a b : BitVec m) (h : n ≤ m) :
    (a - b).setWidth n = a.setWidth n - b.setWidth n := by
  have sum := BitVec.setWidth_add (a - b) b h
  rw [BitVec.sub_add_cancel] at sum
  rw [sum, BitVec.add_sub_cancel]

/-- A product that the narrow type holds. -/
theorem promoted_mul_ushiftRight (small : n ≤ 32) (room : x.toNat * y.toNat < 2 ^ n) (k : Nat) :
    ((x.setWidth 32 * y.setWidth 32) >>> k).setWidth n = (x * y) >>> k := by
  have wide : x.toNat * y.toNat < 2 ^ 32 :=
    Nat.lt_of_lt_of_le room (Nat.pow_le_pow_right (by decide) small)
  have product : x.setWidth 32 * y.setWidth 32 = (x * y).setWidth 32 := by
    apply BitVec.eq_of_toNat_eq
    rw [BitVec.toNat_mul, toNat_promoted x small, toNat_promoted y small,
      toNat_promoted (x * y) small, BitVec.toNat_mul, Nat.mod_eq_of_lt wide, Nat.mod_eq_of_lt room]
  rw [product, promoted_ushiftRight _ small]

theorem setWidth_promoted (small : n ≤ 32) : (x.setWidth 32).setWidth n = x := by
  rw [BitVec.setWidth_setWidth_of_le _ small, BitVec.setWidth_eq]

end

theorem encode_u8_eq (bin : BitVec 8) : encode_u8 bin = bin % 100 + bin % 100 / 10 * 6 := by
  apply BitVec.eq_of_toNat_eq
  have h := bin.isLt
  simp [encode_u8]
  omega

theorem decode_u8_eq (bcd : BitVec 8) : decode_u8 bcd = bcd - bcd >>> 4 * 6 := by
  rw [decode_u8, setWidth_sub _ _ (by decide), BitVec.setWidth_mul _ _ (by decide),
    promoted_ushiftRight bcd (by decide), setWidth_promoted bcd (by decide)]
  rfl

theorem encode_u16_eq (bin : BitVec 16) :
    encode_u16 bin =
      let bin := bin % 10000
      let bin := bin + bin / 100 * 156
      let tens := ((bin >>> 1 &&& 0x007F) * 52) >>> 8 ||| ((bin >>> 9 &&& 0x007F) * 52 &&& 0xFF00)
      bin + tens * 6 := by
  have mod : ((bin.setWidth 32 % 10000 : BitVec 32).setWidth 16 : BitVec 16) = bin % 10000 :=
    promoted_umod bin 10000 (by decide)
  have div (x : BitVec 16) :
      ((x.setWidth 32 / 100 : BitVec 32).setWidth 16 : BitVec 16) = x / 100 :=
    promoted_udiv x 100 (by decide)
  have lane (x : BitVec 16) (k : Nat) :
      ((x.setWidth 32 >>> k &&& 0x007F : BitVec 32).setWidth 16 : BitVec 16) =
        x >>> k &&& 0x007F := by
    rw [BitVec.setWidth_and, promoted_ushiftRight x (by decide)]
    rfl
  have low (x : BitVec 16) :
      ((((x.setWidth 32 &&& (0x007F : BitVec 16).setWidth 32) * 52) >>> 8 : BitVec 32).setWidth 16
        : BitVec 16) = ((x &&& 0x007F) * 52) >>> 8 := by
    rw [← BitVec.setWidth_and]
    refine promoted_mul_ushiftRight (x &&& 0x007F) 52 (by decide) ?_ 8
    have lane : (x &&& 0x007F).toNat ≤ 127 := by
      rw [BitVec.toNat_and]
      exact Nat.and_le_right
    exact Nat.lt_of_le_of_lt (Nat.mul_le_mul_right 52 lane) (by decide)
  simp only [encode_u16, mod, div, lane, low, BitVec.setWidth_add _ _ (show 16 ≤ 32 by decide),
    BitVec.setWidth_mul _ _ (show 16 ≤ 32 by decide), BitVec.setWidth_or, BitVec.setWidth_and,
    setWidth_promoted _ (show 16 ≤ 32 by decide)]
  rfl

theorem decode_u16_eq (bcd : BitVec 16) : decode_u16 bcd =
    let bcd := bcd - (bcd >>> 4 &&& 0x0F0F) * 6
    bcd - bcd >>> 8 * 156 := by
  simp only [decode_u16, setWidth_sub _ _ (show 16 ≤ 32 by decide),
    BitVec.setWidth_mul _ _ (show 16 ≤ 32 by decide), BitVec.setWidth_and,
    promoted_ushiftRight _ (show 16 ≤ 32 by decide), setWidth_promoted _ (show 16 ≤ 32 by decide)]
  rfl

/-! ## The narrow conversions -/

theorem encode_u8_packed (bin : BitVec 8) :
    Packed 4 2 (group 1 (bin.toNat % 10 ^ 2)) (encode_u8 bin) := by
  have reduced : bin.toNat % 10 ^ 2 < 10 ^ 2 := Nat.mod_lt _ (by decide)
  have value : (bin % 100).toNat = bin.toNat % 10 ^ 2 := BitVec.toNat_umod
  rw [encode_u8_eq]
  generalize hv : bin.toNat % 10 ^ 2 = v at reduced value ⊢
  have two : Packed 8 1 (group (1 + 1) v) (bin % 100) :=
    Packed.single (value.trans (group_zero (s := 2) reduced).symm)
  have half : Packed 8 1 (fun i => group (1 + 1) v i / 10 ^ 1) (bin % 100 / 10) := by
    refine Packed.single ?_
    rw [BitVec.toNat_udiv, value, group_zero (s := 2) reduced]
    rfl
  exact spread (w := 4) (s := 1) (c := 6) two half rfl (by decide)

theorem high_byte (x : BitVec 16) : x >>> 8 &&& 0x00FF#16 = x >>> 8 := by
  apply BitVec.eq_of_toNat_eq
  have h := x.isLt
  rw [BitVec.toNat_and, BitVec.toNat_ushiftRight, Nat.shiftRight_eq_div_pow]
  refine (Nat.and_two_pow_sub_one_eq_mod _ 8).trans (Nat.mod_eq_of_lt ?_)
  omega

theorem encode_u16_packed (bin : BitVec 16) :
    Packed 4 4 (group 1 (bin.toNat % 10 ^ 4)) (encode_u16 bin) := by
  have reduced : bin.toNat % 10 ^ 4 < 10 ^ 4 := Nat.mod_lt _ (by decide)
  have value : (bin % 10000).toNat = bin.toNat % 10 ^ 4 := BitVec.toNat_umod
  rw [encode_u16_eq]
  generalize hv : bin.toNat % 10 ^ 4 = v at reduced value ⊢
  have four : Packed 16 1 (group (2 + 2) v) (bin % 10000) :=
    Packed.single (value.trans (group_zero (s := 4) reduced).symm)
  have half : Packed 16 1 (fun i => group (2 + 2) v i / 10 ^ 2) (bin % 10000 / 100) := by
    refine Packed.single ?_
    rw [BitVec.toNat_udiv, value, group_zero (s := 4) reduced]
    rfl
  have two := spread (w := 8) (s := 2) (c := 156) four half rfl (by decide)
  have pairs (i : Nat) (_ : i < 2 * 1) : group 2 v i < 100 := group_lt 2 v i
  have digit := tens (n := 1) (c := 52) (m := 0x007F) (a := 0x00FF#16) (b := 0xFF00) two pairs
    rfl rfl rfl rfl
  rw [high_byte] at digit
  exact spread (w := 4) (s := 1) (c := 6) two digit rfl (by decide)

theorem decode_u8_value {v : Nat} {bcd : BitVec 8} (hv : v < 10 ^ 2)
    (h : Packed 4 2 (group 1 v) bcd) : (decode_u8 bcd).toNat = v := by
  rw [decode_u8_eq]
  have two := gather (w := 4) (s := 1) (n := 1) (c := 6) h (upper_single h) rfl (by decide)
  have value := two.value
  rw [show List.map (group (1 + 1) v) (List.range 1) = [group 2 v 0] from rfl, pack_singleton,
    group_zero hv] at value
  exact value

theorem decode_u16_value {v : Nat} {bcd : BitVec 16} (hv : v < 10 ^ 4)
    (h : Packed 4 4 (group 1 v) bcd) : (decode_u16 bcd).toNat = v := by
  rw [decode_u16_eq]
  have two := gather (w := 4) (s := 1) (n := 2) (c := 6) h (upper (c := 0x0F0F) h rfl) rfl
    (by decide)
  have four := gather (w := 8) (s := 2) (n := 1) (c := 156) two (upper_single two) rfl (by decide)
  have value := four.value
  rw [show List.map (group (2 + 2) v) (List.range 1) = [group 4 v 0] from rfl, pack_singleton,
    group_zero hv] at value
  exact value

/-! ## Halves -/

section

variable {n N : Nat} {is_valid : BitVec N → Bool} {encode decode : BitVec N → BitVec N}
  {is_valid' : BitVec (N + N) → Bool} {encode' decode' : BitVec (N + N) → BitVec (N + N)}

/-- A digit of a number that was cut off above it. -/
theorem digit_mod (v : Nat) {i : Nat} (hi : i < n) :
    v % 10 ^ n / 10 ^ i % 10 = v / 10 ^ i % 10 := by
  have parts : 10 ^ n = 10 ^ i * (10 * 10 ^ (n - i - 1)) := by
    rw [← Nat.pow_succ', ← Nat.pow_add]
    congr 1
    omega
  rw [parts, Nat.mod_mul_right_div_self, Nat.mod_mul_right_mod]

/-- A word is determined by its nibbles. -/
theorem nibble_inj (width : 4 * n = N) {x y : BitVec N} (h : ∀ i < n, nibble x i = nibble y i) :
    x = y :=
  ((Packed.digits x width).congr h).unique (Packed.digits y width)

theorem append_low (hi lo : BitVec N) : (hi ++ lo).setWidth N = lo := by
  ext j hj
  simp [BitVec.getLsbD_append, hj]

theorem append_high (hi lo : BitVec N) : ((hi ++ lo) >>> N).setWidth N = hi := by
  ext j hj
  simp [BitVec.getLsbD_append, BitVec.getLsbD_eq_getElem hj]

theorem nibble_low (width : 4 * n = N) (hi lo : BitVec N) {i : Nat} (h : i < n) :
    nibble (hi ++ lo) i = nibble lo i := by
  have part : lo = ((hi ++ lo) >>> (4 * 0)).setWidth N := (append_low hi lo).symm
  rw [nibble_add (hi ++ lo) lo 0 i (by omega) part, Nat.zero_add]

theorem nibble_high (width : 4 * n = N) (hi lo : BitVec N) {i : Nat} (h : i < n) :
    nibble (hi ++ lo) (n + i) = nibble hi i := by
  have part : hi = ((hi ++ lo) >>> (4 * n)).setWidth N := by rw [width, append_high]
  rw [nibble_add (hi ++ lo) hi n i (by omega) part]

variable (width : 4 * n = N) (narrow : Laws n is_valid encode decode)
  (wide : Laws (n + n) is_valid' encode' decode')

include width in
/-- The digits of a word fit into it. -/
theorem power_le : 10 ^ n ≤ 2 ^ N := by
  rw [← width, Nat.pow_mul]
  exact Nat.pow_le_pow_left (by decide) n

include width narrow wide in
/-- The digits of a number are those of its two halves. -/
theorem Laws.encode_append (bin : BitVec (N + N)) : encode' bin =
    encode (BitVec.ofNat N (bin.toNat / 10 ^ n % 10 ^ n)) ++
      encode (BitVec.ofNat N (bin.toNat % 10 ^ n)) := by
  have fits (v : Nat) : (BitVec.ofNat N (v % 10 ^ n)).toNat = v % 10 ^ n := by
    have small := Nat.mod_lt v (show 0 < 10 ^ n from Nat.pow_pos (by decide))
    rw [BitVec.toNat_ofNat, Nat.mod_eq_of_lt (Nat.lt_of_lt_of_le small (power_le width))]
  refine nibble_inj (n := n + n) (by omega) fun i hi => ?_
  rw [wide.digit bin i hi, digit_mod _ hi]
  by_cases low : i < n
  · rw [nibble_low width _ _ low, narrow.digit _ i low, fits, digit_mod _ low, digit_mod _ low]
  · obtain ⟨j, rfl⟩ := Nat.exists_eq_add_of_le (Nat.not_lt.1 low)
    have high : j < n := by omega
    rw [nibble_high width _ _ high, narrow.digit _ j high, fits, digit_mod _ high, digit_mod _ high,
      Nat.div_div_eq_div_mul, ← Nat.pow_add]

include narrow in
/-- The value of a valid word has at most `n` digits. -/
theorem Laws.decode_lt {bcd : BitVec N} (valid : is_valid bcd) : (decode bcd).toNat < 10 ^ n := by
  have value := narrow.decode_encode (decode bcd)
  rw [narrow.encode_decode bcd valid] at value
  rw [value]
  exact Nat.mod_lt _ (Nat.pow_pos (by decide))

include width narrow wide in
/-- The value of a word of two valid halves. -/
theorem Laws.decode_append {hi lo : BitVec N} (high : is_valid hi) (low : is_valid lo) :
    (decode' (hi ++ lo)).toNat = (decode hi).toNat * 10 ^ n + (decode lo).toNat := by
  have upper := narrow.decode_lt high
  have lower := narrow.decode_lt low
  have pos : 0 < 10 ^ n := Nat.pow_pos (by decide)
  generalize hv : (decode hi).toNat * 10 ^ n + (decode lo).toNat = v
  have first : v / 10 ^ n % 10 ^ n = (decode hi).toNat := by
    rw [← hv, Nat.add_comm, Nat.add_mul_div_right _ _ pos, Nat.div_eq_of_lt lower, Nat.zero_add,
      Nat.mod_eq_of_lt upper]
  have second : v % 10 ^ n = (decode lo).toNat := by
    rw [← hv, Nat.add_comm, Nat.add_mul_mod_self_right, Nat.mod_eq_of_lt lower]
  have bound : v < 10 ^ (n + n) := by
    have step := Nat.mul_le_mul_right (10 ^ n) (Nat.succ_le_of_lt upper)
    rw [Nat.succ_mul] at step
    rw [Nat.pow_add]
    omega
  have fits : (BitVec.ofNat (N + N) v).toNat = v := by
    rw [BitVec.toNat_ofNat, Nat.mod_eq_of_lt (Nat.lt_of_lt_of_le bound (power_le (by omega)))]
  have word := narrow.encode_append width wide (BitVec.ofNat (N + N) v)
  rw [fits, first, second, BitVec.ofNat_toNat, BitVec.ofNat_toNat, BitVec.setWidth_eq,
    BitVec.setWidth_eq, narrow.encode_decode hi high, narrow.encode_decode lo low] at word
  rw [← word, wide.decode_encode, fits, Nat.mod_eq_of_lt bound]

include width narrow in
/-- An encoded number is its digits, read in base sixteen. -/
theorem Laws.encode_toNat (bin : BitVec N) : (encode bin).toNat =
    Nat.ofDigits 16 ((List.range n).map fun i => bin.toNat % 10 ^ n / 10 ^ i % 10) := by
  rw [(Packed.digits (encode bin) width).value]
  refine congrArg (Nat.ofDigits 16) (List.map_congr_left fun i hi => ?_)
  exact narrow.digit bin i (List.mem_range.1 hi)

include width narrow in
/-- Valid words compare as the numbers they stand for. -/
theorem Laws.lt_iff {x y : BitVec N} (hx : is_valid x) (hy : is_valid y) :
    x < y ↔ decode x < decode y := by
  have forward {x y : BitVec N} (hx : is_valid x) (hy : is_valid y) (less : decode x < decode y) :
      x < y := by
    have small := narrow.decode_lt hx
    have small' := narrow.decode_lt hy
    rw [BitVec.lt_def, ← narrow.encode_decode x hx, ← narrow.encode_decode y hy,
      narrow.encode_toNat width, narrow.encode_toNat width, Nat.mod_eq_of_lt small,
      Nat.mod_eq_of_lt small']
    exact ofDigits_lt (by decide) (by decide) small' (BitVec.lt_def.1 less)
  constructor
  · intro less
    rcases Nat.lt_trichotomy (decode x).toNat (decode y).toNat with lt | eq | gt
    · exact lt
    · rw [← narrow.encode_decode x hx, ← narrow.encode_decode y hy,
        BitVec.eq_of_toNat_eq eq] at less
      exact absurd less (Nat.lt_irrefl _)
    · exact absurd less (Nat.lt_asymm (forward hy hx gt))
  · exact forward hx hy

/-- The conversions of a word are those of its halves. -/
structure Doubles (n : Nat) (is_valid : BitVec N → Bool) (encode decode : BitVec N → BitVec N)
    (is_valid' : BitVec (N + N) → Bool) (encode' decode' : BitVec (N + N) → BitVec (N + N)) :
    Prop where
  encode : ∀ bin, encode' bin = encode (BitVec.ofNat N (bin.toNat / 10 ^ n % 10 ^ n)) ++
    encode (BitVec.ofNat N (bin.toNat % 10 ^ n))
  valid : ∀ hi lo, is_valid' (hi ++ lo) = (is_valid lo && is_valid hi)
  decode : ∀ hi lo, is_valid hi → is_valid lo →
    (decode' (hi ++ lo)).toNat = (decode hi).toNat * 10 ^ n + (decode lo).toNat

include width narrow wide in
theorem Doubles.of_laws (check : ∀ bcd : BitVec (N + N),
    is_valid' bcd = (is_valid (bcd.setWidth N) && is_valid ((bcd >>> N).setWidth N))) :
    Doubles n is_valid encode decode is_valid' encode' decode' where
  encode := narrow.encode_append width wide
  valid hi lo := by rw [check, append_low, append_high]
  decode _ _ := narrow.decode_append width wide

end

/-! ## All widths -/

/-- Valid words compare as their values. -/
def Ordered {N : Nat} (is_valid : BitVec N → Bool) (decode : BitVec N → BitVec N) : Prop :=
  ∀ x y, is_valid x → is_valid y → (x < y ↔ decode x < decode y)

/-- **One code in four widths.** The narrow conversions obey the laws of the wide ones, the
staged lane arithmetic of each width is the one of half the width on both halves, and in every
width valid words compare as the numbers they stand for. -/
theorem widths_agree :
    (Laws 2 is_valid_u8 encode_u8 decode_u8 ∧ Laws 4 is_valid_u16 encode_u16 decode_u16) ∧
    (Doubles 2 is_valid_u8 encode_u8 decode_u8 is_valid_u16 encode_u16 decode_u16 ∧
      Doubles 4 is_valid_u16 encode_u16 decode_u16 is_valid_u32 encode_u32 decode_u32 ∧
      Doubles 8 is_valid_u32 encode_u32 decode_u32 is_valid_u64 encode_u64 decode_u64) ∧
    (Ordered is_valid_u8 decode_u8 ∧ Ordered is_valid_u16 decode_u16 ∧
      Ordered is_valid_u32 decode_u32 ∧ Ordered is_valid_u64 decode_u64) := by
  have eight : Laws 2 is_valid_u8 encode_u8 decode_u8 :=
    .of_packed rfl is_valid_u8_iff encode_u8_packed decode_u8_value
  have sixteen : Laws 4 is_valid_u16 encode_u16 decode_u16 :=
    .of_packed rfl is_valid_u16_iff encode_u16_packed decode_u16_value
  have thirtytwo : Laws 8 is_valid_u32 encode_u32 decode_u32 :=
    .of_packed rfl is_valid_u32_iff encode_u32_packed decode_u32_value
  have sixtyfour : Laws 16 is_valid_u64 encode_u64 decode_u64 :=
    .of_packed rfl is_valid_u64_iff encode_u64_packed decode_u64_value
  refine ⟨⟨eight, sixteen⟩, ⟨?_, ?_, ?_⟩, ?_, ?_, ?_, ?_⟩
  · exact .of_laws rfl eight sixteen fun _ => rfl
  · exact .of_laws rfl sixteen thirtytwo fun _ => rfl
  · exact .of_laws rfl thirtytwo sixtyfour fun _ => rfl
  · exact fun _ _ => eight.lt_iff rfl
  · exact fun _ _ => sixteen.lt_iff rfl
  · exact fun _ _ => thirtytwo.lt_iff rfl
  · exact fun _ _ => sixtyfour.lt_iff rfl

end Coter.Bcd
