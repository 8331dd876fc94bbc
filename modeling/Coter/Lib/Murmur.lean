import Coter.Lib.BlockHash

/-!
# MurmurHash2

The 32-bit function on whole bytes, with words of four bytes least significant byte first.
-/

namespace Lib.Murmur

open Lib.ByteOrder Lib.BlockHash

def word (block : List UInt8) : BitVec 32 := BitVec.ofNat 32 (decode .little block)

/-- One word of the message. -/
def mix (h : BitVec 32) (block : List UInt8) : BitVec 32 :=
  let k := word block * 0x5bd1e995
  let k := (k ^^^ k >>> 24) * 0x5bd1e995
  h * 0x5bd1e995 ^^^ k

/-- What is left over after the last whole word. -/
def tail (h : BitVec 32) (rest : List UInt8) : BitVec 32 :=
  if rest = [] then h else (h ^^^ word rest) * 0x5bd1e995

def finish (h : BitVec 32) : BitVec 32 :=
  let h := (h ^^^ h >>> 13) * 0x5bd1e995
  h ^^^ h >>> 15

/-- MurmurHash2. -/
def murmur2 (seed : BitVec 32) (m : List UInt8) : BitVec 32 :=
  let (h, rest) := absorb mix 4 (seed ^^^ BitVec.ofNat 32 m.length) m
  finish (tail h rest)

end Lib.Murmur
