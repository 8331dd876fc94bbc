import Coter.Core.Machine
import Coter.Lib.Refine
import Coter.Lib.Slots

/-!
# The stack

`ct_stack`: elements of `byte_` bytes in the first slots of a storage.

* `Answer`, `spec`: a bounded sequence, its last element first, and what it answers to each call;
* `push_spec`, `pop_spec`, `top_spec`: one call on the elements;
* `stack_refines_lifo`: over every run the stack answers as the sequence does.
-/

namespace Coter

open Lib.Blocks Lib.Machine Lib.Refine

/-- `ct_stack_t` -/
structure Stack where
  all : List UInt8
  byte : Nat
  max : Nat
  size : Nat
  deriving DecidableEq, Repr

namespace Stack

/-- `ct_stack_clear` -/
def clear (s : Stack) : Stack := { s with size := 0 }

/-- `ct_stack_init` -/
def init (buffer : List UInt8) (byte max : Nat) : Option Stack :=
  if byte = 0 then none else some (clear ⟨buffer, byte, max, 0⟩)

def isEmpty (s : Stack) : Bool := s.size == 0

def isFull (s : Stack) : Bool := s.size == s.max

/-- `ct_stack_push` -/
def push (s : Stack) (item : List UInt8) : Except Fault (Bool × Stack) :=
  if s.isFull then .ok (false, s)
  else do
    let all ← store s.all (s.size * s.byte) (← load item 0 s.byte)
    .ok (true, { s with all, size := s.size + 1 })

/-- `if (item) { memcpy(item, ..); }` -/
def copyOut (s : Stack) (item : Option (List UInt8)) (i : Nat) :
    Except Fault (Option (List UInt8)) :=
  match item with
  | none => .ok none
  | some item => do
    let item ← store item 0 (← load s.all (i * s.byte) s.byte)
    .ok (some item)

/-- `ct_stack_pop` -/
def pop (s : Stack) (item : Option (List UInt8)) :
    Except Fault (Bool × Option (List UInt8) × Stack) :=
  if s.isEmpty then .ok (false, item, s)
  else do
    let s := { s with size := s.size - 1 }
    let item ← s.copyOut item s.size
    .ok (true, item, s)

/-- `ct_stack_top` -/
def top (s : Stack) (item : Option (List UInt8)) : Except Fault (Bool × Option (List UInt8)) :=
  if s.isEmpty then .ok (false, item)
  else do
    let item ← s.copyOut item (s.size - 1)
    .ok (true, item)

/-- The elements, the last one first. -/
def contents (s : Stack) : List (List UInt8) := (slots s.byte s.all s.size).reverse

structure Valid (s : Stack) : Prop where
  byte : 0 < s.byte
  stored : s.all.length = s.max * s.byte
  size : s.size ≤ s.max

variable {s : Stack} {item : List UInt8} {items : List (List UInt8)}

@[simp] theorem contents_length (s : Stack) : s.contents.length = s.size := by
  simp [contents]

/-! ## The sequence -/

inductive Op
  | push (item : List UInt8)
  | pop (item : Option (List UInt8))
  | top (item : Option (List UInt8))
  | clear

/-- What a call returns: its result, and the caller's buffer after it. -/
inductive Answer
  | pushed (ok : Bool)
  | item (ok : Bool) (item : Option (List UInt8))
  | cleared
  deriving DecidableEq

def Answer.refused : Answer → Bool
  | .pushed false | .item false _ => true
  | _ => false

/-- There is no buffer, or an element fits. -/
def Holds (byte : Nat) (item : Option (List UInt8)) : Prop := ∀ m ∈ item, byte ≤ m.length

/-- An element has `byte` bytes, and a buffer has room for one. -/
def Op.Sized (byte : Nat) : Op → Prop
  | .push item => item.length = byte
  | .pop item | .top item => Holds byte item
  | .clear => True

/-- A buffer to which an element was copied. The bytes behind it stay. -/
def copied (item : Option (List UInt8)) (bytes : List UInt8) : Option (List UInt8) :=
  item.map fun item => bytes ++ item.drop bytes.length

/-- What is read of the last element. -/
def answerTop (items : List (List UInt8)) (item : Option (List UInt8)) : Answer :=
  match items with
  | [] => .item false item
  | last :: _ => .item true (copied item last)

/-- A sequence of at most `max` elements, the last one first. -/
def spec (max : Nat) (items : List (List UInt8)) : Op → Answer × List (List UInt8)
  | .push item =>
    if items.length = max then (.pushed false, items) else (.pushed true, item :: items)
  | .pop item => (answerTop items item, items.tail)
  | .top item => (answerTop items item, items)
  | .clear => (.cleared, [])

/-- One call. -/
def step (s : Stack) : Op → Except Fault (Answer × Stack)
  | .push item => do
    let (ok, s) ← s.push item
    return (.pushed ok, s)
  | .pop item => do
    let (ok, item, s) ← s.pop item
    return (.item ok item, s)
  | .top item => do
    let (ok, item) ← s.top item
    return (.item ok item, s)
  | .clear => return (.cleared, s.clear)

/-! ## Calls -/

theorem isFull_eq : s.isFull = true ↔ s.size = s.max := beq_iff_eq

theorem isEmpty_eq : s.isEmpty = true ↔ s.size = 0 := beq_iff_eq

/-- A slot below the top lies inside the storage. -/
theorem Valid.slot_room (v : Valid s) {i : Nat} (hi : i < s.max) :
    i * s.byte + s.byte ≤ s.all.length := by
  have inside := Nat.mul_le_mul_right s.byte (Nat.succ_le_of_lt hi)
  rwa [← v.stored, Nat.succ_mul] at inside

theorem push_spec (v : Valid s) (few : s.size < s.max) (hitem : item.length = s.byte) :
    ∃ s', push s item = .ok (true, s') ∧ Valid s' ∧ s'.byte = s.byte ∧ s'.max = s.max ∧
      s'.contents = item :: s.contents := by
  have nonfull : ¬s.isFull = true := fun full => few.ne (isFull_eq.1 full)
  have room := v.slot_room few
  have fits : s.size * s.byte + item.length ≤ s.all.length := by rwa [hitem]
  have one : item.length = 1 * s.byte := by rw [hitem, Nat.one_mul]
  have whole : Lib.Blocks.read item 0 s.byte = item := by
    rw [← hitem, Lib.Blocks.read, List.drop_zero, List.take_length]
  have single : slots s.byte item 1 = [item] := by
    rw [slots, List.range_one, List.map_singleton, slot, Nat.zero_mul, whole]
  have filled := slots_fill (w := s.byte) (m := s.all) (n := s.size) one
    (by rwa [Nat.add_mul, Nat.one_mul])
  refine ⟨{ s with all := write s.all (s.size * s.byte) item, size := s.size + 1 }, ?_,
    ⟨v.byte, (write_length fits).trans v.stored, few⟩, rfl, rfl, ?_⟩
  · rw [push, if_neg nonfull, load_ok (by omega), ok_bind, whole, store_ok fits]
    rfl
  · rw [contents, filled, single, List.reverse_append]
    rfl

theorem copyOut_spec {dst : Option (List UInt8)} (holds : Holds s.byte dst) {i : Nat}
    (room : i * s.byte + s.byte ≤ s.all.length) :
    copyOut s dst i = .ok (copied dst (slot s.byte s.all i)) := by
  have length : (slot s.byte s.all i).length = s.byte := read_length room
  cases dst with
  | none => rfl
  | some m =>
    have fits : 0 + (slot s.byte s.all i).length ≤ m.length := by
      rw [Nat.zero_add, length]
      exact holds m rfl
    have loaded : load s.all (i * s.byte) s.byte = .ok (slot s.byte s.all i) := load_ok room
    rw [copyOut, loaded, ok_bind, store_ok fits, write_start]
    rfl

/-- The elements of a stack that is not empty. -/
theorem contents_cons (some : s.size ≠ 0) : s.contents =
    slot s.byte s.all (s.size - 1) :: contents { s with size := s.size - 1 } := by
  obtain ⟨n, hn⟩ := Nat.exists_eq_succ_of_ne_zero some
  rw [contents, contents, hn, slots, List.range_succ, List.map_append, List.reverse_append]
  rfl

theorem pop_spec (v : Valid s) (some : s.size ≠ 0) {dst : Option (List UInt8)}
    (holds : Holds s.byte dst) :
    ∃ last s', pop s dst = .ok (true, copied dst last, s') ∧ Valid s' ∧ s'.byte = s.byte ∧
      s'.max = s.max ∧ s.contents = last :: s'.contents := by
  have size := v.size
  have nonempty : ¬s.isEmpty = true := fun empty => some (isEmpty_eq.1 empty)
  have room := v.slot_room (show s.size - 1 < s.max by omega)
  refine ⟨slot s.byte s.all (s.size - 1), { s with size := s.size - 1 }, ?_,
    ⟨v.byte, v.stored, (Nat.sub_le _ _).trans size⟩, rfl, rfl, contents_cons some⟩
  rw [pop, if_neg nonempty]
  dsimp only
  rw [copyOut_spec (s := { s with size := s.size - 1 }) holds room]
  rfl

theorem top_spec (v : Valid s) (some : s.size ≠ 0) {dst : Option (List UInt8)}
    (holds : Holds s.byte dst) :
    ∃ last rest, top s dst = .ok (true, copied dst last) ∧ s.contents = last :: rest := by
  have size := v.size
  have nonempty : ¬s.isEmpty = true := fun empty => some (isEmpty_eq.1 empty)
  refine ⟨_, _, ?_, contents_cons some⟩
  rw [top, if_neg nonempty, copyOut_spec holds (v.slot_room (by omega))]
  rfl

/-! ## Runs -/

/-- The stack holds the elements `items`. -/
structure Stores (byte max : Nat) (s : Stack) (items : List (List UInt8)) : Prop where
  bytes : s.byte = byte
  bound : s.max = max
  valid : Valid s
  contents : s.contents = items

/-- A refused call changes nothing. -/
def Unchanged (s : Stack) (_ : Op) (a : Answer) (s' : Stack) : Prop := a.refused = true → s' = s

variable {byte max : Nat} (h : Stores byte max s items)

include h in
theorem Stores.size : s.size = items.length := by
  rw [← h.contents, contents_length]

include h in
theorem Stores.of_valid {s' : Stack} {items' : List (List UInt8)} (valid : Valid s')
    (bytes : s'.byte = s.byte) (bound : s'.max = s.max) (contents : s'.contents = items') :
    Stores byte max s' items' :=
  ⟨bytes.trans h.bytes, bound.trans h.bound, valid, contents⟩

/-- One call is answered as the sequence answers it. -/
def Answers (byte max : Nat) (s : Stack) (items : List (List UInt8)) (op : Op) : Prop :=
  ∃ s', step s op = .ok ((spec max items op).1, s') ∧ Stores byte max s' (spec max items op).2 ∧
    Unchanged s op (spec max items op).1 s'

include h in
theorem answers_push (sized : item.length = byte) : Answers byte max s items (.push item) := by
  have size := h.size
  have bound := h.bound
  unfold Answers
  by_cases full : items.length = max
  · have answer : spec max items (.push item) = (.pushed false, items) := if_pos full
    rw [answer]
    refine ⟨s, ?_, h, fun _ => rfl⟩
    rw [step, push, if_pos (isFull_eq.2 (by omega))]
    rfl
  · have few := h.valid.size
    obtain ⟨s', run, valid, bytes, bound', contents⟩ :=
      push_spec h.valid (by omega) (sized.trans h.bytes.symm)
    have answer : spec max items (.push item) = (.pushed true, item :: items) := if_neg full
    rw [answer]
    refine ⟨s', ?_, h.of_valid valid bytes bound' (by rw [contents, h.contents]), nofun⟩
    rw [step, run]
    rfl

include h in
theorem answers_pop {dst : Option (List UInt8)} (holds : Holds byte dst) :
    Answers byte max s items (.pop dst) := by
  have size := h.size
  cases items with
  | nil =>
    refine ⟨s, ?_, h, fun _ => rfl⟩
    rw [step, pop, if_pos (isEmpty_eq.2 size)]
    rfl
  | cons item items =>
    obtain ⟨last, s', run, valid, bytes, bound, contents⟩ :=
      pop_spec h.valid (size.trans_ne (Nat.succ_ne_zero _)) (h.bytes ▸ holds)
    rw [h.contents, List.cons.injEq] at contents
    obtain ⟨rfl, rest⟩ := contents
    refine ⟨s', ?_, h.of_valid valid bytes bound rest.symm, nofun⟩
    rw [step, run]
    rfl

include h in
theorem answers_top {dst : Option (List UInt8)} (holds : Holds byte dst) :
    Answers byte max s items (.top dst) := by
  have size := h.size
  refine ⟨s, ?_, h, fun _ => rfl⟩
  cases items with
  | nil =>
    rw [step, top, if_pos (isEmpty_eq.2 size)]
    rfl
  | cons item items =>
    obtain ⟨last, rest, run, contents⟩ :=
      top_spec h.valid (size.trans_ne (Nat.succ_ne_zero _)) (h.bytes ▸ holds)
    rw [h.contents, List.cons.injEq] at contents
    obtain ⟨rfl, -⟩ := contents
    rw [step, run]
    rfl

include h in
theorem answers_clear : Answers byte max s items .clear :=
  ⟨s.clear, rfl, ⟨h.bytes, h.bound, ⟨h.valid.byte, h.valid.stored, Nat.zero_le _⟩, rfl⟩, nofun⟩

/-- **A bounded sequence.** Over every run, for every capacity and element size, the stack answers
as a sequence of at most `max` elements whose last one comes first; no copy leaves the storage or
the caller's buffer, and a refused call changes nothing. -/
theorem stack_refines_lifo {buffer : List UInt8} (hbyte : 0 < byte)
    (storage : buffer.length = max * byte) {ops : List Op} (sized : ∀ op ∈ ops, op.Sized byte) :
    ∃ s, init buffer byte max = some s ∧
      (∃ t, exec step s ops = .ok ((specRun (spec max) [] ops).1, t) ∧
        t.contents = (specRun (spec max) [] ops).2) ∧
      Along step (fun t => Valid t ∧ t.byte = byte ∧ t.max = max) Unchanged s ops := by
  have fresh : Stores byte max ⟨buffer, byte, max, 0⟩ [] :=
    ⟨rfl, rfl, ⟨hbyte, storage, Nat.zero_le _⟩, rfl⟩
  have keeps (s : Stack) (items : List (List UInt8)) (op : Op) (h : Stores byte max s items)
      (hop : op.Sized byte) : Answers byte max s items op := by
    cases op with
    | push item => exact answers_push h hop
    | pop dst => exact answers_pop h hop
    | top dst => exact answers_top h hop
    | clear => exact answers_clear h
  have shape (t : Stack) (items : List (List UInt8)) (h : Stores byte max t items) :
      Valid t ∧ t.byte = byte ∧ t.max = max := ⟨h.valid, h.bytes, h.bound⟩
  obtain ⟨⟨t, run, stores⟩, along⟩ := exec_refines shape keeps fresh sized
  exact ⟨_, if_neg hbyte.ne', ⟨t, run, stores.contents⟩, along⟩

/-- Two slots of two bytes, with a buffer that is longer than an element. -/
theorem stack_refines_lifo_two :
    let ops : List Op := [.push [1, 2], .push [3, 4], .push [5, 6], .top none,
      .pop (some [0, 0, 9]), .clear, .pop none]
    ∃ s, init [0, 0, 0, 0] 2 2 = some s ∧
      (∃ t, exec step s ops = .ok ((specRun (spec 2) [] ops).1, t) ∧
        t.contents = (specRun (spec 2) [] ops).2) ∧
      Along step (fun t => Valid t ∧ t.byte = 2 ∧ t.max = 2) Unchanged s ops := by
  intro ops
  exact stack_refines_lifo (by decide) rfl (by simp [ops, Op.Sized, Holds])

end Stack

end Coter
