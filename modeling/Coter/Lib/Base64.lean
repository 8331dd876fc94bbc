import Mathlib

/-!
# Base 64

The base 64 encoding of bytes, over any alphabet of 64 digits and a padding character.

* `encode_append`: whole groups are encoded one after the other;
* `encode_length`: four characters for each group of three bytes, the last one padded.
-/

namespace Lib.Base64

/-- The 24 bits of three bytes. -/
def group (a b c : UInt8) : Nat := a.toNat * 2 ^ 16 + b.toNat * 2 ^ 8 + c.toNat

/-- The 6-bit groups of 24 bits, from left to right. -/
def sextet (n : Nat) (i : Fin 4) : Nat := n / 64 ^ (3 - i.val) % 64

variable {α : Type} (digit : Nat → α) (pad : α)

/-- Missing bytes at the end are zero, and their digits are padding. -/
def encode : List UInt8 → List α
  | [] => []
  | [a] => [digit (sextet (group a 0 0) 0), digit (sextet (group a 0 0) 1), pad, pad]
  | [a, b] =>
    [digit (sextet (group a b 0) 0), digit (sextet (group a b 0) 1),
      digit (sextet (group a b 0) 2), pad]
  | a :: b :: c :: rest =>
    digit (sextet (group a b c) 0) :: digit (sextet (group a b c) 1) ::
      digit (sextet (group a b c) 2) :: digit (sextet (group a b c) 3) :: encode rest

theorem encode_append (xs ys : List UInt8) (h : 3 ∣ xs.length) :
    encode digit pad (xs ++ ys) = encode digit pad xs ++ encode digit pad ys := by
  induction xs using encode.induct with
  | case1 => rfl
  | case2 a => simp at h
  | case3 a b =>
    simp only [List.length_cons, List.length_nil] at h
    omega
  | case4 a b c rest ih =>
    have hrest : 3 ∣ rest.length := by
      simp only [List.length_cons] at h
      omega
    simp only [List.cons_append, encode, ih hrest]

theorem encode_length (xs : List UInt8) :
    (encode digit pad xs).length = 4 * ((xs.length + 2) / 3) := by
  induction xs using encode.induct with
  | case1 => rfl
  | case2 a => simp [encode]
  | case3 a b => simp [encode]
  | case4 a b c rest ih =>
    simp only [encode, List.length_cons, ih]
    omega

end Lib.Base64
