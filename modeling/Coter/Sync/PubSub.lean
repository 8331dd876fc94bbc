import Coter.Container.VecRun
import Coter.Lib.ByteOrder

/-!
# The publish/subscribe bus

`ct_pubsub`: the subscribers of all event types in one `ct_array`, in the order they
came. A call holds `rwlock_` for as long as it works on the array, and a callback
that calls back into a writer would wait for itself, so one call follows another and
the lock is left out.
-/

namespace Coter.PubSub

open Lib.Blocks Lib.ByteOrder

/-- `pubsub_sub_t` -/
structure Sub where
  type : BitVec 32
  cb : BitVec 64
  userData : BitVec 64
  deriving DecidableEq, Repr

/-- `sizeof(pubsub_sub_t)` on a 64-bit platform. -/
def subSize : Nat := 24

/-- A `pubsub_sub_t` in storage, with `pad` between `type_` and `cb_`. -/
def Sub.elem (host : Endian) (s : Sub) (pad : BitVec 32) : Elem UInt8 subSize where
  cells := encode host 4 s.type.toNat ++ (encode host 4 pad.toNat ++
    (encode host 8 s.cb.toNat ++ encode host 8 s.userData.toNat))
  length := by simp [subSize]

/-- The members of the `pubsub_sub_t` stored in `cells`. -/
def Sub.ofCells (host : Endian) (cells : List UInt8) : Sub where
  type := BitVec.ofNat 32 (decode host (read cells 0 4))
  cb := BitVec.ofNat 64 (decode host (read cells 8 8))
  userData := BitVec.ofNat 64 (decode host (read cells 16 8))

/-- A call of `cb`. -/
structure Call where
  cb : BitVec 64
  type : BitVec 32
  data : BitVec 64
  userData : BitVec 64
  deriving DecidableEq, Repr

/-- `sub_list_` after `ct_pubsub_init`. -/
def init : CtArray UInt8 := ⟨⟨none, 0, 0⟩, subSize⟩

variable (host : Endian)

/-- `ct_pubsub_subscribe`: what it returns, and `sub_list_` after it. -/
def subscribe (a : CtArray UInt8) (type : BitVec 32) (cb userData : BitVec 64) (pad : BitVec 32)
    (g : Option (Grant UInt8)) : Except Fault (Int × CtArray UInt8) :=
  if cb = 0 then .ok (-1, a)
  else do
    let sub : Sub := ⟨type, cb, userData⟩
    let (ok, a) ← CtArray.step zeroByte a (.push (some (sub.elem host pad)) g)
    if !ok then .ok (-1, a) else .ok (0, a)

/-- The test of `ct_pubsub_unsubscribe` on an entry. -/
def Sub.matches (type : BitVec 32) (cb : BitVec 64) (sub : Sub) : Bool :=
  sub.type == type && (sub.cb == cb || cb == 0)

/-- The loop of `ct_pubsub_unsubscribe`. -/
def unsubscribeLoop (type : BitVec 32) (cb : BitVec 64) :
    Nat → Nat → Int → CtArray UInt8 → Except Fault (Int × CtArray UInt8)
  | 0, i, ret, a => if i < a.size then .error .fuel else .ok (ret, a)
  | fuel + 1, i, ret, a =>
    if i < a.size then do
      match ← a.at i with
      | some sub =>
        if (Sub.ofCells host sub).matches type cb then
          -- `i--`, which wraps at 0, and then the `++i` of the loop
          let (_, a) ← CtArray.step zeroByte a (.erase i : CtArray.Op UInt8 subSize)
          unsubscribeLoop type cb fuel (usize (usizeSub i 1 + 1)) 0 a
        else unsubscribeLoop type cb fuel (usize (i + 1)) ret a
      | none => unsubscribeLoop type cb fuel (usize (i + 1)) ret a
    else .ok (ret, a)

/-- `ct_pubsub_unsubscribe` -/
def unsubscribe (a : CtArray UInt8) (type : BitVec 32) (cb : BitVec 64) :
    Except Fault (Int × CtArray UInt8) :=
  if cb = 0 then .ok (-1, a)
  else unsubscribeLoop host type cb a.size 0 (-1) a

/-- The loop of `ct_pubsub_publish`: the calls that it makes, in order. -/
def publishLoop (type : BitVec 32) (data : BitVec 64) (a : CtArray UInt8) :
    Nat → Nat → Except Fault (List Call)
  | 0, i => if i < a.size then .error .fuel else .ok []
  | fuel + 1, i =>
    if i < a.size then do
      let sub ← a.at i
      let rest ← publishLoop type data a fuel (usize (i + 1))
      match sub.map (Sub.ofCells host) with
      | some sub =>
        if sub.type = type then .ok (⟨sub.cb, type, data, sub.userData⟩ :: rest) else .ok rest
      | none => .ok rest
    else .ok []

/-- `ct_pubsub_publish` -/
def publish (a : CtArray UInt8) (type : BitVec 32) (data : BitVec 64) :
    Except Fault (Int × List Call) := do
  let calls ← publishLoop host type data a a.size 0
  .ok (0, calls)

/-- A call on a bus. A subscription comes with the bytes that pad its entry and
with what the allocator answers. -/
inductive Op
  | subscribe (type : BitVec 32) (cb userData : BitVec 64) (pad : BitVec 32)
    (g : Option (Grant UInt8))
  | unsubscribe (type : BitVec 32) (cb : BitVec 64)
  | publish (type : BitVec 32) (data : BitVec 64)

/-- One call: what it returns with the callbacks it calls, and `sub_list_` after it. -/
def step (a : CtArray UInt8) : Op → Except Fault ((Int × List Call) × CtArray UInt8)
  | .subscribe type cb userData pad g => do
    let (ret, a) ← subscribe host a type cb userData pad g
    .ok ((ret, []), a)
  | .unsubscribe type cb => do
    let (ret, a) ← unsubscribe host a type cb
    .ok ((ret, []), a)
  | .publish type data => do
    let out ← publish host a type data
    .ok (out, a)

end Coter.PubSub
