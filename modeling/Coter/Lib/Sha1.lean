import Coter.Lib.BlockHash

/-!
# SHA-1

The secure hash algorithm of FIPS 180 on whole bytes, with the words of a block and of the
digest most significant byte first.

* `schedule`: the 80 words that a block is expanded to;
* `step`: one of the 80 steps on a block;
* `sha1`: the hash function.
-/

namespace Lib.Sha1

open Lib.ByteOrder Lib.BlockHash

/-- The five working variables. -/
@[ext] structure State where
  a : BitVec 32
  b : BitVec 32
  c : BitVec 32
  d : BitVec 32
  e : BitVec 32
deriving DecidableEq, Repr

def Ch (x y z : BitVec 32) : BitVec 32 := (x &&& y) ^^^ (~~~x &&& z)

def Parity (x y z : BitVec 32) : BitVec 32 := x ^^^ y ^^^ z

def Maj (x y z : BitVec 32) : BitVec 32 := (x &&& y) ^^^ (x &&& z) ^^^ (y &&& z)

/-- The function of a step. -/
def function (t : Nat) : BitVec 32 → BitVec 32 → BitVec 32 → BitVec 32 :=
  match t / 20 with
  | 0 => Ch
  | 1 => Parity
  | 2 => Maj
  | _ => Parity

/-- The constant of a step. -/
def constant (t : Nat) : BitVec 32 :=
  match t / 20 with
  | 0 => 0x5a827999
  | 1 => 0x6ed9eba1
  | 2 => 0x8f1bbcdc
  | _ => 0xca62c1d6

/-- Word `t` of the expansion of the words `m` of a block. -/
def schedule (m : Nat → BitVec 32) (t : Nat) : BitVec 32 :=
  if _ : t < 16 then m t
  else (schedule m (t - 3) ^^^ schedule m (t - 8) ^^^ schedule m (t - 14) ^^^
    schedule m (t - 16)).rotateLeft 1

theorem schedule_first (m : Nat → BitVec 32) {t : Nat} (h : t < 16) : schedule m t = m t := by
  rw [schedule, dif_pos h]

theorem schedule_next (m : Nat → BitVec 32) {t : Nat} (h : 16 ≤ t) :
    schedule m t = (schedule m (t - 3) ^^^ schedule m (t - 8) ^^^ schedule m (t - 14) ^^^
      schedule m (t - 16)).rotateLeft 1 := by
  rw [schedule, dif_neg (by omega)]

/-- Step `t` with the expanded words `W`. -/
def step (W : Nat → BitVec 32) (s : State) (t : Nat) : State where
  a := s.a.rotateLeft 5 + function t s.b s.c s.d + s.e + constant t + W t
  b := s.a
  c := s.b.rotateLeft 30
  d := s.c
  e := s.d

/-- Word `k` of a block. -/
def word (block : List UInt8) (k : Nat) : BitVec 32 :=
  BitVec.ofNat 32 (decode .big ((block.drop (4 * k)).take 4))

def compress (s : State) (block : List UInt8) : State :=
  let r := (List.range 80).foldl (step (schedule (word block))) s
  ⟨s.a + r.a, s.b + r.b, s.c + r.c, s.d + r.d, s.e + r.e⟩

def output (s : State) : List UInt8 :=
  encode .big 4 s.a.toNat ++ encode .big 4 s.b.toNat ++ encode .big 4 s.c.toNat ++
    encode .big 4 s.d.toNat ++ encode .big 4 s.e.toNat

/-- SHA-1. -/
def sha1 : Hash State where
  order := .big
  init := ⟨0x67452301, 0xefcdab89, 0x98badcfe, 0x10325476, 0xc3d2e1f0⟩
  compress := compress
  output := output

end Lib.Sha1
