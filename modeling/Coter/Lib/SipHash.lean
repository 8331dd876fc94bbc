import Coter.Lib.BlockHash

/-!
# SipHash

The keyed function SipHash-c-d on whole bytes, with words of eight bytes least significant
byte first.

* `round`: one SipRound;
* `padded`: the message up to a whole number of words, the last byte being its length;
* `sipHash`: the value.
-/

namespace Lib.SipHash

open Lib.ByteOrder Lib.BlockHash

/-- The four words of the internal state. -/
@[ext] structure State where
  v0 : BitVec 64
  v1 : BitVec 64
  v2 : BitVec 64
  v3 : BitVec 64
deriving DecidableEq, Repr

/-- SipRound. -/
def round (v : State) : State :=
  let v0 := v.v0 + v.v1
  let v1 := v.v1.rotateLeft 13 ^^^ v0
  let v0 := v0.rotateLeft 32
  let v2 := v.v2 + v.v3
  let v3 := v.v3.rotateLeft 16 ^^^ v2
  let v0 := v0 + v3
  let v3 := v3.rotateLeft 21 ^^^ v0
  let v2 := v2 + v1
  let v1 := v1.rotateLeft 17 ^^^ v2
  let v2 := v2.rotateLeft 32
  ⟨v0, v1, v2, v3⟩

def word (block : List UInt8) : BitVec 64 := BitVec.ofNat 64 (decode .little block)

/-- One word of the message, with `c` rounds. -/
def compress (c : Nat) (v : State) (block : List UInt8) : State :=
  let v := round^[c] { v with v3 := v.v3 ^^^ word block }
  { v with v0 := v.v0 ^^^ word block }

def start (key : List UInt8) : State where
  v0 := 0x736f6d6570736575 ^^^ word (key.take 8)
  v1 := 0x646f72616e646f6d ^^^ word (key.drop 8)
  v2 := 0x6c7967656e657261 ^^^ word (key.take 8)
  v3 := 0x7465646279746573 ^^^ word (key.drop 8)

def padded (m : List UInt8) : List UInt8 :=
  m ++ List.replicate (7 - m.length % 8) 0 ++ [UInt8.ofNat m.length]

/-- SipHash with `c` rounds for each word and `d` at the end. -/
def sipHash (c d : Nat) (key m : List UInt8) : BitVec 64 :=
  let v := (absorb (compress c) 8 (start key) (padded m)).1
  let v := round^[d] { v with v2 := v.v2 ^^^ 0xff }
  v.v0 ^^^ v.v1 ^^^ v.v2 ^^^ v.v3

end Lib.SipHash
