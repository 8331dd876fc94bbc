import Coter.Lib.BlockHash

/-!
# MD5

The message digest of RFC 1321 on whole bytes, with the words of a block and of the digest
least significant byte first.

* `step`: one of the 64 operations on a block, with the registers in a new order after it;
* `md5`: the hash function.
-/

namespace Lib.Md5

open Lib.ByteOrder Lib.BlockHash

/-- The four registers. -/
@[ext] structure State where
  a : BitVec 32
  b : BitVec 32
  c : BitVec 32
  d : BitVec 32
deriving DecidableEq, Repr

def F (x y z : BitVec 32) : BitVec 32 := (x &&& y) ||| (~~~x &&& z)

def G (x y z : BitVec 32) : BitVec 32 := (x &&& z) ||| (y &&& ~~~z)

def H (x y z : BitVec 32) : BitVec 32 := x ^^^ y ^^^ z

def I (x y z : BitVec 32) : BitVec 32 := y ^^^ (x ||| ~~~z)

/-- The table of the integer parts of `2 ^ 32` times the sines of 1 to 64, without their
signs. -/
def sines : List (BitVec 32) := [
  0xd76aa478, 0xe8c7b756, 0x242070db, 0xc1bdceee, 0xf57c0faf, 0x4787c62a,
  0xa8304613, 0xfd469501, 0x698098d8, 0x8b44f7af, 0xffff5bb1, 0x895cd7be,
  0x6b901122, 0xfd987193, 0xa679438e, 0x49b40821, 0xf61e2562, 0xc040b340,
  0x265e5a51, 0xe9b6c7aa, 0xd62f105d, 0x02441453, 0xd8a1e681, 0xe7d3fbc8,
  0x21e1cde6, 0xc33707d6, 0xf4d50d87, 0x455a14ed, 0xa9e3e905, 0xfcefa3f8,
  0x676f02d9, 0x8d2a4c8a, 0xfffa3942, 0x8771f681, 0x6d9d6122, 0xfde5380c,
  0xa4beea44, 0x4bdecfa9, 0xf6bb4b60, 0xbebfbc70, 0x289b7ec6, 0xeaa127fa,
  0xd4ef3085, 0x04881d05, 0xd9d4d039, 0xe6db99e5, 0x1fa27cf8, 0xc4ac5665,
  0xf4292244, 0x432aff97, 0xab9423a7, 0xfc93a039, 0x655b59c3, 0x8f0ccc92,
  0xffeff47d, 0x85845dd1, 0x6fa87e4f, 0xfe2ce6e0, 0xa3014314, 0x4e0811a1,
  0xf7537e82, 0xbd3af235, 0x2ad7d2bb, 0xeb86d391]

/-- The function of a round. -/
def function (i : Nat) : BitVec 32 → BitVec 32 → BitVec 32 → BitVec 32 :=
  match i / 16 with
  | 0 => F
  | 1 => G
  | 2 => H
  | _ => I

/-- The word of the block that an operation takes. -/
def index (i : Nat) : Nat :=
  match i / 16 with
  | 0 => i % 16
  | 1 => (5 * i + 1) % 16
  | 2 => (3 * i + 5) % 16
  | _ => 7 * i % 16

/-- The rotation of an operation. -/
def shift (i : Nat) : Nat :=
  match i / 16 with
  | 0 => [7, 12, 17, 22].getD (i % 4) 0
  | 1 => [5, 9, 14, 20].getD (i % 4) 0
  | 2 => [4, 11, 16, 23].getD (i % 4) 0
  | _ => [6, 10, 15, 21].getD (i % 4) 0

/-- Operation `i` on the words `x` of a block. -/
def step (x : Nat → BitVec 32) (s : State) (i : Nat) : State where
  a := s.d
  b := s.b + (s.a + function i s.b s.c s.d + x (index i) + sines.getD i 0).rotateLeft (shift i)
  c := s.b
  d := s.c

/-- Word `k` of a block. -/
def word (block : List UInt8) (k : Nat) : BitVec 32 :=
  BitVec.ofNat 32 (decode .little ((block.drop (4 * k)).take 4))

def compress (s : State) (block : List UInt8) : State :=
  let r := (List.range 64).foldl (step (word block)) s
  ⟨s.a + r.a, s.b + r.b, s.c + r.c, s.d + r.d⟩

def output (s : State) : List UInt8 :=
  encode .little 4 s.a.toNat ++ encode .little 4 s.b.toNat ++ encode .little 4 s.c.toNat ++
    encode .little 4 s.d.toNat

/-- MD5. -/
def md5 : Hash State where
  order := .little
  init := ⟨0x67452301, 0xefcdab89, 0x98badcfe, 0x10325476⟩
  compress := compress
  output := output

end Lib.Md5
