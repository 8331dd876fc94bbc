import Coter.Container.Queue
import Coter.Lib.Refine

/-!
# Runs of the queue

* `Answer`, `spec`: a bounded sequence, and what it answers to each call;
* `traverseLoop_spec`: a traversal visits the elements in order;
* `queue_refines_fifo`: over every run the queue answers as the sequence does.
-/

namespace Coter.Queue

open Lib.Blocks Lib.Ring Lib.Machine Lib.Refine

/-! ## The sequence -/

section

variable (α : Type)

inductive Op
  | enqueue (item : List UInt8)
  | dequeue
  | head
  | traverse (callback : Callback α) (arg : α)
  | clear

/-- What a call returns: whether it took the element, the element it copied, or the result of
the traversal and its `arg`. -/
inductive Answer
  | accepted (ok : Bool)
  | item (item : Option (List UInt8))
  | visited (rc : Int) (arg : α)
  | cleared

end

variable {α : Type}

def Answer.refused : Answer α → Bool
  | .accepted false | .item none => true
  | _ => false

/-- An element has `byte` bytes. -/
def Op.Sized (byte : Nat) : Op α → Prop
  | .enqueue item => item.length = byte
  | _ => True

/-- The visit of a sequence, up to the first result that is not zero. -/
def visit (callback : Callback α) : List (List UInt8) → α → Int × α × List (List UInt8)
  | [], arg => (0, arg, [])
  | item :: items, arg =>
    let (rc, bytes, arg) := callback item arg
    if rc ≠ 0 then (rc, arg, bytes.1 :: items)
    else
      let (rc, arg, items) := visit callback items arg
      (rc, arg, bytes.1 :: items)

/-- A sequence of at most `max` elements, oldest first. -/
def spec (max : Nat) (items : List (List UInt8)) : Op α → Answer α × List (List UInt8)
  | .enqueue item =>
    if items.length = max then (.accepted false, items) else (.accepted true, items ++ [item])
  | .dequeue => (.item items.head?, items.tail)
  | .head => (.item items.head?, items)
  | .traverse callback arg =>
    let (rc, arg, items) := visit callback items arg
    (.visited rc arg, items)
  | .clear => (.cleared, [])

/-- One call. -/
def step (q : Queue) : Op α → Except Fault (Answer α × Queue)
  | .enqueue item => do
    let (ok, q) ← q.enqueue item
    return (.accepted ok, q)
  | .dequeue => do
    let (item, q) ← q.dequeue
    return (.item item, q)
  | .head => do
    let item ← q.headItem
    return (.item item, q)
  | .traverse callback arg => do
    let (rc, arg, q) ← q.traverse callback arg
    return (.visited rc arg, q)
  | .clear => return (.cleared, q.clear)

/-! ## Traversal -/

section

variable {q : Queue} {callback : Callback α}

theorem position_lt (v : Valid q) {i : Nat} (hi : i < q.size) :
    wrap q.max (q.head + i) < q.max := by
  have head := v.head
  have size := v.size
  have := wrap_cases q.max (q.head + i)
  omega

/-- An element that is changed in place. -/
theorem contents_set (v : Valid q) {i : Nat} (hi : i < q.size) {b : List UInt8}
    (hb : b.length = q.byte) :
    contents { q with all := write q.all (wrap q.max (q.head + i) * q.byte) b } =
      q.contents.set i b := by
  have head := v.head
  have size := v.size
  have room := v.slot_room (position_lt v hi)
  have slots := slot_write (m := q.all) (b := b) (j := wrap q.max (q.head + i))
    (by rw [hb, Nat.add_mul, Nat.one_mul]; exact room)
  rw [hb] at slots
  unfold contents
  dsimp only
  rw [slots]
  apply List.ext_getElem
  · rw [List.length_set, List.length_map, List.length_map]
  · intro k hk hk'
    rw [List.length_map, List.length_range] at hk
    rw [List.getElem_set, List.getElem_map, List.getElem_map, List.getElem_range]
    by_cases same : i = k
    · rw [if_pos same, same, Function.update_self]
    · have apart : wrap q.max (q.head + k) ≠ wrap q.max (q.head + i) := by
        have := wrap_cases q.max (q.head + k)
        have := wrap_cases q.max (q.head + i)
        omega
      rw [if_neg same, Function.update_of_ne apart]

theorem load_item (v : Valid q) {i : Nat} (hi : i < q.contents.length) :
    load q.all (wrap q.max (q.head + i) * q.byte) q.byte = .ok q.contents[i] := by
  rw [contents_length] at hi
  rw [load_ok (v.slot_room (position_lt v hi))]
  simp only [contents, List.getElem_map, List.getElem_range]
  rfl

theorem item_length (v : Valid q) {i : Nat} (hi : i < q.contents.length) :
    q.contents[i].length = q.byte := by
  have size := hi
  rw [contents_length] at size
  have room := v.slot_room (position_lt v size)
  simp only [contents, List.getElem_map, List.getElem_range]
  exact slot_length (by rwa [Nat.add_mul, Nat.one_mul])

/-- The storage may change where it keeps its length. -/
theorem Valid.stored_again (v : Valid q) {all : List UInt8} (h : all.length = q.all.length) :
    Valid { q with all } where
  byte := v.byte
  max := v.max
  stored := h.trans v.stored
  size := v.size
  head := v.head
  tail := v.tail

/-- The elements from position `i` on are visited in order, and the others are left alone. -/
theorem traverseLoop_spec (v : Valid q) {left i : Nat} (h : i + left = q.size) (arg : α) :
    ∃ q', traverseLoop callback left (wrap q.max (q.head + i)) q arg =
        .ok ((visit callback (q.contents.drop i) arg).1,
          (visit callback (q.contents.drop i) arg).2.1, q') ∧
      q'.contents = q.contents.take i ++ (visit callback (q.contents.drop i) arg).2.2 ∧
      Valid q' ∧ q'.byte = q.byte ∧ q'.max = q.max := by
  induction left generalizing q i arg with
  | zero =>
    have all : q.contents.length ≤ i := by
      rw [contents_length]
      omega
    rw [List.drop_eq_nil_of_le all, List.take_of_length_le all]
    exact ⟨q, rfl, (List.append_nil _).symm, v, rfl, rfl⟩
  | succ left ih =>
    have hi : i < q.contents.length := by
      rw [contents_length]
      omega
    have size : i < q.size := by omega
    have length := item_length v hi
    rcases answer : callback q.contents[i] arg with ⟨rc, ⟨bytes, same⟩, arg'⟩
    have hb : bytes.length = q.byte := same.trans length
    have room := v.slot_room (position_lt v size)
    have kept : (write q.all (wrap q.max (q.head + i) * q.byte) bytes).length = q.all.length :=
      write_length (by rwa [hb])
    have stored : store q.all (wrap q.max (q.head + i) * q.byte) bytes =
        .ok (write q.all (wrap q.max (q.head + i) * q.byte) bytes) := store_ok (by rwa [hb])
    have written := contents_set v size hb
    have valid := v.stored_again kept
    rw [List.drop_eq_getElem_cons hi, traverseLoop, load_item v hi, ok_bind, visit]
    simp only [answer, stored, ok_bind]
    by_cases stop : rc ≠ 0
    · simp only [if_pos stop]
      refine ⟨_, rfl, ?_, valid, rfl, rfl⟩
      rw [written, List.set_eq_take_append_cons_drop, if_pos hi]
    · have next (all : List UInt8) : { q with all }.indexInc (wrap q.max (q.head + i)) =
          wrap q.max (q.head + (i + 1)) := by
        have small := v.size
        change q.indexInc _ = _
        rw [indexInc_eq (position_lt v size), wrap_wrap v.head (by omega)]
      obtain ⟨q', run, contents, valid', byte, max⟩ :=
        ih valid (show i + 1 + left = q.size by omega) arg'
      rw [written, List.drop_set_of_lt (Nat.lt_succ_self i)] at run contents
      have front : (q.contents.set i bytes).take (i + 1) = q.contents.take i ++ [bytes] := by
        have hi' : i < (q.contents.set i bytes).length := by rwa [List.length_set]
        rw [List.take_succ_eq_append_getElem hi', List.getElem_set_self, List.take_set_of_le le_rfl]
      simp only [if_neg stop, next]
      refine ⟨q', run, ?_, valid', byte, max⟩
      rw [contents, front, List.append_assoc]
      rfl

end

/-! ## Calls -/

/-- The queue holds the elements `items`. A queue of no elements at all takes none. -/
structure Stores (byte max : Nat) (q : Queue) (items : List (List UInt8)) : Prop where
  bytes : q.byte = byte
  bound : q.max = max
  elem : 0 < byte
  storage : q.all.length = max * byte
  valid : Valid q ∨ max = 0 ∧ q.head = 0 ∧ q.tail = 0 ∧ q.size = 0
  contents : q.contents = items

/-- A refused call changes nothing. -/
def Unchanged (q : Queue) (_ : Op α) (a : Answer α) (q' : Queue) : Prop :=
  a.refused = true → q' = q

variable {byte max : Nat} {q : Queue} {items : List (List UInt8)}

theorem stores_init {buffer : List UInt8} (hbyte : 0 < byte) (h : buffer.length = max * byte) :
    Stores byte max (init buffer byte max) [] where
  bytes := rfl
  bound := rfl
  elem := hbyte
  storage := h
  valid := by
    rcases Nat.eq_zero_or_pos max with none | some
    · exact Or.inr ⟨none, rfl, rfl, rfl⟩
    · exact Or.inl (init_valid hbyte some h)
  contents := rfl

variable (h : Stores byte max q items)

include h in
theorem Stores.size : q.size = items.length := by
  rw [← h.contents, contents_length]

include h in
/-- A queue with room, or with an element, has slots. -/
theorem Stores.valid_of_ne (ne : 0 < max) : Valid q := by
  rcases h.valid with valid | ⟨none, -⟩
  · exact valid
  · omega

include h in
theorem Stores.of_valid {q' : Queue} {items' : List (List UInt8)} (valid : Valid q')
    (bound : q'.max = q.max) (bytes : q'.byte = q.byte) (contents : q'.contents = items') :
    Stores byte max q' items' where
  bytes := bytes.trans h.bytes
  bound := bound.trans h.bound
  elem := h.elem
  storage := by rw [valid.stored, bound, bytes, h.bound, h.bytes]
  valid := Or.inl valid
  contents := contents

/-- One call is answered as the sequence answers it. -/
def Answers (byte max : Nat) (q : Queue) (items : List (List UInt8)) (op : Op α) : Prop :=
  ∃ q', step q op = .ok ((spec max items op).1, q') ∧ Stores byte max q' (spec max items op).2 ∧
    Unchanged q op (spec max items op).1 q'

include h in
theorem answers_enqueue {item : List UInt8} (sized : item.length = byte) :
    Answers byte max q items (.enqueue item : Op α) := by
  have size := h.size
  have bound := h.bound
  have elem : q.byte ≠ 0 := h.bytes ▸ h.elem.ne'
  unfold Answers
  by_cases full : items.length = max
  · have isFull : q.isFull = true := by
      rw [isFull, beq_iff_eq]
      omega
    have answer : spec max items (.enqueue item : Op α) = (.accepted false, items) := if_pos full
    rw [answer]
    refine ⟨q, ?_, h, fun _ => rfl⟩
    rw [step, enqueue, if_neg elem, if_pos isFull]
    rfl
  · have few : items.length ≤ max := by
      rcases h.valid with valid | ⟨-, -, -, none⟩
      · have := valid.size
        omega
      · omega
    obtain ⟨q', run, valid, max', byte', contents⟩ :=
      enqueue_spec (h.valid_of_ne (by omega)) (by omega) (sized.trans h.bytes.symm)
    rw [h.contents] at contents
    have answer : spec max items (.enqueue item : Op α) = (.accepted true, items ++ [item]) :=
      if_neg full
    rw [answer]
    refine ⟨q', ?_, h.of_valid valid max' byte' contents, ?_⟩
    · rw [step, run]
      rfl
    · intro refused
      cases refused

/-- A queue without elements. -/
theorem empty_eq {q : Queue} (none : q.size = 0) : q.isEmpty = true := by
  rw [isEmpty, beq_iff_eq, none]

include h in
theorem answers_dequeue : Answers byte max q items (.dequeue : Op α) := by
  have size := h.size
  have elem : q.byte ≠ 0 := h.bytes ▸ h.elem.ne'
  cases items with
  | nil =>
    refine ⟨q, ?_, h, fun _ => rfl⟩
    rw [step, dequeue, if_neg elem, if_pos (empty_eq size)]
    rfl
  | cons item items =>
    rw [List.length_cons] at size
    have some : 0 < max := by
      rcases h.valid with valid | ⟨-, -, -, none⟩
      · exact h.bound ▸ valid.max
      · omega
    obtain ⟨item', q', run, valid, max', byte', contents⟩ :=
      dequeue_spec (h.valid_of_ne some) (by omega)
    rw [h.contents, List.cons.injEq] at contents
    obtain ⟨rfl, rest⟩ := contents
    refine ⟨q', ?_, h.of_valid valid max' byte' rest.symm, ?_⟩
    · rw [step, run]
      rfl
    · intro refused
      cases refused

include h in
theorem answers_head : Answers byte max q items (.head : Op α) := by
  have size := h.size
  have elem : q.byte ≠ 0 := h.bytes ▸ h.elem.ne'
  refine ⟨q, ?_, h, fun _ => rfl⟩
  cases items with
  | nil =>
    rw [step, headItem, if_neg elem, if_pos (empty_eq size)]
    rfl
  | cons item items =>
    rw [List.length_cons] at size
    have occupied : ¬q.isEmpty = true := by
      rw [isEmpty, beq_iff_eq]
      omega
    rcases h.valid with valid | ⟨-, -, -, none⟩
    · have first : 0 < q.contents.length := by
        rw [contents_length]
        omega
      have start : wrap q.max (q.head + 0) = q.head := if_pos valid.head
      have loaded := load_item valid first
      simp only [h.contents, List.getElem_cons_zero] at loaded
      rw [start] at loaded
      rw [step, headItem, if_neg elem, if_neg occupied, loaded]
      rfl
    · omega

include h in
theorem answers_traverse (callback : Callback α) (arg : α) :
    Answers byte max q items (.traverse callback arg) := by
  have size := h.size
  have elem : q.byte ≠ 0 := h.bytes ▸ h.elem.ne'
  rcases h.valid with valid | ⟨-, -, -, none⟩
  · obtain ⟨q', run, contents, valid', byte', max'⟩ :=
      @traverseLoop_spec α q callback valid q.size 0 (Nat.zero_add _) arg
    rw [show wrap q.max (q.head + 0) = q.head from if_pos valid.head, List.drop_zero, h.contents]
      at run
    rw [List.drop_zero, List.take_zero, List.nil_append, h.contents] at contents
    refine ⟨q', ?_, h.of_valid valid' max' byte' contents, nofun⟩
    rw [step, traverse, if_neg elem, run]
    rfl
  · obtain rfl : items = [] := List.eq_nil_of_length_eq_zero (by omega)
    refine ⟨q, ?_, h, nofun⟩
    rw [step, traverse, if_neg elem, none]
    rfl

include h in
theorem answers_clear : Answers byte max q items (.clear : Op α) := by
  refine ⟨q.clear, rfl, ⟨h.bytes, h.bound, h.elem, h.storage, ?_, rfl⟩, nofun⟩
  rcases Nat.eq_zero_or_pos max with none | some
  · exact Or.inr ⟨none, rfl, rfl, rfl⟩
  · have valid := h.valid_of_ne some
    have pos := valid.max
    exact Or.inl ⟨valid.byte, pos, valid.stored, Nat.zero_le _, pos, (if_pos pos).symm⟩

/-- **A bounded sequence.** Over every run, for every capacity and element size, the queue
answers as a sequence of at most `max` elements; no copy leaves the storage, and a refused call
changes nothing. -/
theorem queue_refines_fifo {buffer : List UInt8} (hbyte : 0 < byte)
    (storage : buffer.length = max * byte) {ops : List (Op α)} (sized : ∀ op ∈ ops, op.Sized byte) :
    (∃ q, exec step (init buffer byte max) ops = .ok ((specRun (spec max) [] ops).1, q) ∧
      q.contents = (specRun (spec max) [] ops).2) ∧
    Along step (fun q => q.all.length = max * byte) Unchanged (init buffer byte max) ops := by
  have keeps (q : Queue) (items : List (List UInt8)) (op : Op α) (h : Stores byte max q items)
      (hop : op.Sized byte) : Answers byte max q items op := by
    cases op with
    | enqueue item => exact answers_enqueue h hop
    | dequeue => exact answers_dequeue h
    | head => exact answers_head h
    | traverse callback arg => exact answers_traverse h callback arg
    | clear => exact answers_clear h
  obtain ⟨⟨q, run, stores⟩, along⟩ :=
    exec_refines (fun _ _ h => h.storage) keeps (stores_init hbyte storage) sized
  exact ⟨⟨q, run, stores.contents⟩, along⟩

/-- Three elements for two slots, and a traversal that stops at the second one. -/
theorem queue_refines_fifo_two :
    let callback : Callback Nat := fun item arg => (if arg = 1 then 7 else 0, ⟨item, rfl⟩, arg + 1)
    let ops : List (Op Nat) := [.enqueue [1], .enqueue [2], .enqueue [3], .dequeue, .enqueue [4],
      .head, .traverse callback 0, .clear]
    (∃ q, exec step (init [0, 0] 1 2) ops = .ok ((specRun (spec 2) [] ops).1, q) ∧
      q.contents = (specRun (spec 2) [] ops).2) ∧
    Along step (fun q => q.all.length = 2 * 1) Unchanged (init [0, 0] 1 2) ops := by
  intro callback ops
  exact queue_refines_fifo (by decide) rfl (by simp [ops, Op.Sized])

end Coter.Queue
