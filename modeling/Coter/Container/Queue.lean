import Coter.Core.Machine
import Coter.Lib.Ring

/-!
# The queue

`ct_queue`: elements of `byte_` bytes in a ring of `max_` slots.

* `contents`: the elements, oldest first;
* `enqueue_spec`, `dequeue_spec`: both ends, with the index that wraps around.
-/

namespace Coter

open Lib.Blocks Lib.Ring

/-- `ct_queue_t`. -/
structure Queue where
  all : List UInt8
  byte : Nat
  max : Nat
  head : Nat
  tail : Nat
  size : Nat
  deriving DecidableEq, Repr

namespace Queue

/-- `ct_queue_init`. -/
def init (buffer : List UInt8) (byte max : Nat) : Queue := ⟨buffer, byte, max, 0, 0, 0⟩

def isEmpty (q : Queue) : Bool := q.size == 0

def isFull (q : Queue) : Bool := q.size == q.max

/-- `CT_QUEUE_INDEX_INC`. -/
def indexInc (q : Queue) (idx : Nat) : Nat := if q.max ≤ idx + 1 then 0 else idx + 1

/-- `ct_queue_enqueue`. -/
def enqueue (q : Queue) (item : List UInt8) : Except Fault (Bool × Queue) :=
  if q.byte = 0 then .ok (false, q)
  else if q.isFull then .ok (false, q)
  else do
    let bytes ← load item 0 q.byte
    let all ← store q.all (q.tail * q.byte) bytes
    .ok (true, { q with all, tail := q.indexInc q.tail, size := q.size + 1 })

/-- `ct_queue_dequeue`, which returns false where there is no element here. -/
def dequeue (q : Queue) : Except Fault (Option (List UInt8) × Queue) :=
  if q.byte = 0 then .ok (none, q)
  else if q.isEmpty then .ok (none, q)
  else do
    let bytes ← load q.all (q.head * q.byte) q.byte
    .ok (some bytes, { q with head := q.indexInc q.head, size := q.size - 1 })

/-- `ct_queue_head`. -/
def headItem (q : Queue) : Except Fault (Option (List UInt8)) :=
  if q.byte = 0 then .ok none
  else if q.isEmpty then .ok none
  else do
    let bytes ← load q.all (q.head * q.byte) q.byte
    .ok (some bytes)

/-- `ct_queue_clear`. -/
def clear (q : Queue) : Queue := { q with head := 0, tail := 0, size := 0 }

/-- What `ct_queue_traverse` calls for an element: its result, what it leaves in the element, and
what `arg` is after it. -/
abbrev Callback (α : Type) :=
  (item : List UInt8) → α → Int × { bytes : List UInt8 // bytes.length = item.length } × α

/-- The loop of `ct_queue_traverse`, with the number of elements that are left. -/
def traverseLoop {α : Type} (callback : Callback α) :
    Nat → Nat → Queue → α → Except Fault (Int × α × Queue)
  | 0, _, q, arg => .ok (0, arg, q)
  | left + 1, idx, q, arg => do
    let item ← load q.all (idx * q.byte) q.byte
    let (rc, bytes, arg) := callback item arg
    let all ← store q.all (idx * q.byte) bytes.1
    let q := { q with all }
    if rc ≠ 0 then .ok (rc, arg, q) else traverseLoop callback left (q.indexInc idx) q arg

/-- `ct_queue_traverse`. -/
def traverse {α : Type} (q : Queue) (callback : Callback α) (arg : α) :
    Except Fault (Int × α × Queue) :=
  if q.byte = 0 then .ok (-1, arg, q)
  else traverseLoop callback q.size q.head q arg

/-- The elements, oldest first. -/
def contents (q : Queue) : List (List UInt8) :=
  (List.range q.size).map fun i => slot q.byte q.all (wrap q.max (q.head + i))

structure Valid (q : Queue) : Prop where
  byte : 0 < q.byte
  max : 0 < q.max
  stored : q.all.length = q.max * q.byte
  size : q.size ≤ q.max
  head : q.head < q.max
  tail : q.tail = wrap q.max (q.head + q.size)

variable {q : Queue} {item : List UInt8}

theorem init_valid {buffer : List UInt8} {byte max : Nat} (hbyte : 0 < byte) (hmax : 0 < max)
    (h : buffer.length = max * byte) : Valid (init buffer byte max) where
  byte := hbyte
  max := hmax
  stored := h
  size := Nat.zero_le _
  head := hmax
  tail := (if_pos hmax).symm

@[simp] theorem contents_length (q : Queue) : q.contents.length = q.size := by simp [contents]

theorem Valid.slot_room (v : Valid q) {i : Nat} (h : i < q.max) :
    i * q.byte + q.byte ≤ q.all.length := by
  have := Nat.mul_le_mul_right q.byte (Nat.succ_le_of_lt h)
  rwa [Nat.succ_mul, ← v.stored] at this

/-- The index goes around once. -/
theorem indexInc_eq {idx : Nat} (h : idx < q.max) : q.indexInc idx = wrap q.max (idx + 1) := by
  unfold indexInc wrap
  split
  · rw [if_neg (by omega)]
    omega
  · rw [if_pos (by omega)]

theorem wrap_wrap {c h i : Nat} (hh : h < c) (hi : i < c) :
    wrap c (wrap c (h + i) + 1) = wrap c (h + (i + 1)) := by
  unfold wrap
  split <;> split <;> split <;> omega

theorem enqueue_spec (v : Valid q) (room : q.size < q.max) (hitem : item.length = q.byte) :
    ∃ q', q.enqueue item = .ok (true, q') ∧ Valid q' ∧ q'.max = q.max ∧ q'.byte = q.byte ∧
      q'.contents = q.contents ++ [item] := by
  have hhead := v.head
  have htail : q.tail < q.max := by
    rw [v.tail]
    have := wrap_cases q.max (q.head + q.size)
    omega
  have hroom := v.slot_room htail
  have hfull : q.isFull = false := by
    simp only [isFull, beq_eq_false_iff_ne]
    omega
  have hload : load item 0 q.byte = .ok item := by
    rw [load_ok (by omega), Lib.Blocks.read, List.drop_zero, List.take_of_length_le (by omega)]
  have hstore : store q.all (q.tail * q.byte) item = .ok (write q.all (q.tail * q.byte) item) :=
    store_ok (by rwa [hitem])
  have slots := slot_write (m := q.all) (b := item) (j := q.tail)
    (by rw [hitem, Nat.add_mul, Nat.one_mul]; exact hroom)
  rw [hitem] at slots
  refine ⟨{ q with
      all := write q.all (q.tail * q.byte) item
      tail := q.indexInc q.tail
      size := q.size + 1 }, ?_, ?_, rfl, rfl, ?_⟩
  · rw [enqueue, if_neg (Nat.ne_of_gt v.byte), hfull, if_neg Bool.false_ne_true, hload, ok_bind,
      hstore, ok_bind]
  · constructor
    · exact v.byte
    · exact v.max
    · exact (write_length (by rwa [hitem])).trans v.stored
    · exact room
    · exact v.head
    · dsimp only
      rw [indexInc_eq htail, v.tail, wrap_wrap hhead room]
  · unfold contents
    dsimp only
    rw [List.range_succ, List.map_append, List.map_singleton, slots, ← v.tail]
    congr 1
    · apply List.map_congr_left
      intro i hi
      have hi := List.mem_range.1 hi
      have other : wrap q.max (q.head + i) ≠ q.tail := by
        rw [v.tail]
        have := wrap_cases q.max (q.head + i)
        have := wrap_cases q.max (q.head + q.size)
        omega
      exact Function.update_of_ne other ..
    · rw [Function.update_self]

theorem dequeue_spec (v : Valid q) (h : 0 < q.size) :
    ∃ item q', q.dequeue = .ok (some item, q') ∧ Valid q' ∧ q'.max = q.max ∧ q'.byte = q.byte ∧
      q.contents = item :: q'.contents := by
  have hhead := v.head
  have hsize := v.size
  have hempty : q.isEmpty = false := by
    simp only [isEmpty, beq_eq_false_iff_ne]
    omega
  have hload : load q.all (q.head * q.byte) q.byte = .ok (slot q.byte q.all q.head) :=
    load_ok (v.slot_room hhead)
  have hinc := indexInc_eq hhead
  refine ⟨slot q.byte q.all q.head, { q with head := q.indexInc q.head, size := q.size - 1 }, ?_, ?_,
    rfl, rfl, ?_⟩
  · rw [dequeue, if_neg (Nat.ne_of_gt v.byte), hempty, if_neg Bool.false_ne_true, hload, ok_bind]
  · constructor
    · exact v.byte
    · exact v.max
    · exact v.stored
    · dsimp only
      omega
    · dsimp only
      have := wrap_cases q.max (q.head + 1)
      omega
    · dsimp only
      rw [v.tail, hinc]
      unfold wrap
      split <;> split <;> split <;> omega
  · unfold contents
    dsimp only
    obtain ⟨n, hn⟩ : ∃ n, q.size = n + 1 := ⟨q.size - 1, by omega⟩
    rw [hn, List.range_succ_eq_map, List.map_cons, List.map_map, Nat.add_sub_cancel, hinc]
    congr 1
    · congr 1
      exact if_pos hhead
    · apply List.map_congr_left
      intro i hi
      have hi := List.mem_range.1 hi
      simp only [Function.comp_apply]
      congr 1
      unfold wrap
      split <;> split <;> split <;> omega

end Queue

end Coter
