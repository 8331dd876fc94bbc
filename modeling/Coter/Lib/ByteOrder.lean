import Mathlib

/-!
# Byte orders

* `split`, `combine`: a number as a fixed count of bytes, least significant first;
* `encode`, `decode`: the same in a given byte order;
* `swapPairs`: the two bytes of each pair exchanged.
-/

namespace Lib.ByteOrder

inductive Endian
  | big
  | little
  deriving DecidableEq, Repr

/-- The `n` low bytes of `v`. -/
def split : Nat → Nat → List UInt8
  | 0, _ => []
  | n + 1, v => UInt8.ofNat v :: split n (v / 256)

def combine : List UInt8 → Nat
  | [] => 0
  | b :: bs => b.toNat + 256 * combine bs

/-- Bytes that are least significant first, in the given order, and back. -/
def Endian.arrange (e : Endian) (bs : List UInt8) : List UInt8 :=
  match e with
  | big => bs.reverse
  | little => bs

def encode (e : Endian) (n v : Nat) : List UInt8 := e.arrange (split n v)

def decode (e : Endian) (bs : List UInt8) : Nat := combine (e.arrange bs)

def swapPairs : List UInt8 → List UInt8
  | a :: b :: rest => b :: a :: swapPairs rest
  | bs => bs

@[simp] theorem split_length (n v : Nat) : (split n v).length = n := by
  induction n generalizing v with
  | zero => rfl
  | succ n ih => simp [split, ih]

theorem ofNat_add_mul (a b : Nat) : UInt8.ofNat (a + 256 * b) = UInt8.ofNat a := by
  apply UInt8.toNat.inj
  rw [UInt8.toNat_ofNat', UInt8.toNat_ofNat']
  exact Nat.add_mul_mod_self_left ..

theorem split_mod (n v : Nat) : split n (v % 256 ^ n) = split n v := by
  induction n generalizing v with
  | zero => rfl
  | succ n ih =>
    have low : v % 256 ^ (n + 1) = v % 256 + 256 * (v / 256 % 256 ^ n) := by
      rw [Nat.pow_succ', Nat.mod_mul]
    have byte : UInt8.ofNat (v % 256) = UInt8.ofNat v := by
      rw [← ofNat_add_mul (v % 256) (v / 256), Nat.mod_add_div]
    rw [split, split, low, ofNat_add_mul, byte, Nat.add_mul_div_left _ _ (by decide),
      Nat.div_eq_of_lt (Nat.mod_lt _ (by decide)), Nat.zero_add, ih]

/-- Two numbers side by side. -/
theorem split_add {n lo : Nat} (h : lo < 256 ^ n) (k hi : Nat) :
    split (n + k) (lo + 256 ^ n * hi) = split n lo ++ split k hi := by
  induction n generalizing lo with
  | zero =>
    obtain rfl : lo = 0 := by omega
    simp [split]
  | succ n ih =>
    have shifted : lo + 256 ^ (n + 1) * hi = lo + 256 * (256 ^ n * hi) := by
      rw [Nat.pow_succ', Nat.mul_assoc]
    rw [Nat.succ_add, split, split, shifted, ofNat_add_mul, Nat.add_mul_div_left _ _ (by decide),
      ih (by rw [Nat.pow_succ'] at h; omega)]
    rfl

theorem combine_split (n v : Nat) : combine (split n v) = v % 256 ^ n := by
  induction n generalizing v with
  | zero => simp [split, combine, Nat.mod_one]
  | succ n ih =>
    have byte : (UInt8.ofNat v).toNat = v % 256 := UInt8.toNat_ofNat'
    rw [split, combine, ih, byte, Nat.pow_succ, Nat.mul_comm (256 ^ n) 256, Nat.mod_mul]

theorem combine_lt (bs : List UInt8) : combine bs < 256 ^ bs.length := by
  induction bs with
  | nil => decide
  | cons b bs ih =>
    have byte := b.toNat_lt
    rw [combine, List.length_cons, Nat.pow_succ']
    omega

theorem combine_append (as bs : List UInt8) :
    combine (as ++ bs) = combine as + 256 ^ as.length * combine bs := by
  induction as with
  | nil => rw [List.nil_append, List.length_nil, Nat.pow_zero, Nat.one_mul, combine, Nat.zero_add]
  | cons a as ih =>
    rw [List.cons_append, combine, combine, ih, List.length_cons, Nat.pow_succ', Nat.mul_add,
      Nat.mul_assoc, Nat.add_assoc]

theorem split_combine (bs : List UInt8) : split bs.length (combine bs) = bs := by
  induction bs with
  | nil => rfl
  | cons b bs ih =>
    rw [List.length_cons, combine, split, ofNat_add_mul, UInt8.ofNat_toNat,
      Nat.add_mul_div_left _ _ (by decide), Nat.div_eq_of_lt b.toNat_lt, Nat.zero_add, ih]

theorem arrange_arrange (e : Endian) (bs : List UInt8) : e.arrange (e.arrange bs) = bs := by
  cases e with
  | big => exact List.reverse_reverse bs
  | little => rfl

theorem arrange_length (e : Endian) (bs : List UInt8) : (e.arrange bs).length = bs.length := by
  cases e with
  | big => exact List.length_reverse
  | little => rfl

@[simp] theorem encode_length (e : Endian) (n v : Nat) : (encode e n v).length = n := by
  rw [encode, arrange_length, split_length]

theorem decode_encode (e : Endian) (n v : Nat) : decode e (encode e n v) = v % 256 ^ n := by
  rw [decode, encode, arrange_arrange, combine_split]

/-- A word of `k` bytes is read back as it was written. -/
theorem ofNat_decode_encode {n : Nat} (e : Endian) (v : BitVec n) {k : Nat} (h : 2 ^ n = 256 ^ k) :
    BitVec.ofNat n (decode e (encode e k v.toNat)) = v := by
  rw [decode_encode, ← h, Nat.mod_eq_of_lt v.isLt, BitVec.ofNat_toNat, BitVec.setWidth_eq]

theorem swapPairs_length (bs : List UInt8) : (swapPairs bs).length = bs.length := by
  fun_induction swapPairs bs with
  | case1 a b rest ih => simp [ih]
  | case2 bs => rfl

theorem swapPairs_swapPairs (bs : List UInt8) : swapPairs (swapPairs bs) = bs := by
  fun_induction swapPairs bs with
  | case1 a b rest ih => simp only [swapPairs, ih]
  | case2 bs hne =>
    cases bs with
    | nil => rfl
    | cons a rest =>
      cases rest with
      | nil => rfl
      | cons b rest => exact absurd rfl (hne a b rest)

theorem swapPairs_append {as : List UInt8} (h : as.length % 2 = 0) (bs : List UInt8) :
    swapPairs (as ++ bs) = swapPairs as ++ swapPairs bs := by
  fun_induction swapPairs as with
  | case1 a b rest ih =>
    simp only [List.cons_append, swapPairs]
    rw [ih (by simp only [List.length_cons] at h; omega)]
  | case2 as hne =>
    cases as with
    | nil => rfl
    | cons a rest =>
      cases rest with
      | nil => simp at h
      | cons b rest => exact absurd rfl (hne a b rest)

/-- Pairs are the same from both ends of an even number of bytes. -/
theorem swapPairs_reverse {bs : List UInt8} (h : bs.length % 2 = 0) :
    swapPairs bs.reverse = (swapPairs bs).reverse := by
  fun_induction swapPairs bs with
  | case1 a b rest ih =>
    have even : rest.length % 2 = 0 := by
      simp only [List.length_cons] at h
      omega
    simp only [List.reverse_cons, List.append_assoc, List.cons_append, List.nil_append]
    rw [swapPairs_append (by rwa [List.length_reverse]), ih even]
    rfl
  | case2 bs hne =>
    cases bs with
    | nil => rfl
    | cons a rest =>
      cases rest with
      | nil => rfl
      | cons b rest => exact absurd rfl (hne a b rest)

theorem swapPairs_arrange (e : Endian) {bs : List UInt8} (h : bs.length % 2 = 0) :
    swapPairs (e.arrange bs) = e.arrange (swapPairs bs) := by
  cases e with
  | big => exact swapPairs_reverse h
  | little => rfl

/-- Bytes of a word, one by one. -/
theorem split_toNat {w : Nat} (v : BitVec w) (n : Nat) :
    split n v.toNat = (List.range n).map fun i => UInt8.ofBitVec (v.extractLsb' (8 * i) 8) := by
  have general (i : Nat) : split n (v.toNat / 256 ^ i) =
      (List.range' i n).map fun i => UInt8.ofBitVec (v.extractLsb' (8 * i) 8) := by
    induction n generalizing i with
    | zero => rfl
    | succ n ih =>
      rw [List.range'_succ, List.map_cons, split, Nat.div_div_eq_div_mul, ← Nat.pow_succ, ih]
      congr 1
      apply UInt8.toNat.inj
      simp [Nat.shiftRight_eq_div_pow, Nat.pow_mul]
  simpa [List.range_eq_range'] using general 0

end Lib.ByteOrder
