import Coter.Container.VecRun

/-!
# The destructor is called once for each element

Element instances are numbered in the order in which they are stored, and every
byte in the storage carries the instance it belongs to. The calls are those of
`Vec.step`: they move the marks along with the bytes and never look at them.

* `accounted`: what leaves the list and what stays is what was there and what
  the call stores;
* `step_ledger`: one call keeps the ledger of instances;
* `destroyed_exactly_once`: runs, and what a final `NAME_destroy` leaves.
-/

namespace Coter

namespace Vec

variable {β : Type} {w : Nat} (zero : Nat → β)

/-- The elements a call stores when it is taken. -/
def Op.created (l : List (List β)) : Op β w → List (List β)
  | .resize newSize _ => (List.range (newSize - l.length)).map (zeroElem zero w)
  | .push val _ | .insert _ val _ | .assign _ val => [stored zero w val]
  | .reserve .. | .pop | .erase _ | .shrink _ | .clear | .destroy => []

/-- The elements that leave and those that stay are the old ones and the new ones. -/
theorem accounted {l : List (List β)} {op : Op β w} (legal : op.Legal l) :
    (op.leaving l ++ op.after zero l).Perm (l ++ op.created zero l) := by
  cases op with
  | reserve cap g => simp [Op.leaving, Op.after, Op.created]
  | shrink g => simp [Op.leaving, Op.after, Op.created]
  | resize n g =>
    rw [Op.leaving, Op.after, resized, Op.created, ← List.append_assoc]
    apply List.Perm.append_right
    exact List.perm_append_comm.trans (by rw [List.take_append_drop])
  | push val g => exact List.Perm.refl _
  | pop =>
    rw [Op.leaving, Op.after, Op.created, List.append_nil, List.dropLast_eq_take]
    exact List.perm_append_comm.trans (by rw [List.take_append_drop])
  | insert i val g =>
    have inserted := List.perm_insertIdx (stored zero w val) l legal
    exact inserted.trans (List.perm_append_singleton _ _).symm
  | erase i =>
    have inside : i < l.length := legal
    rw [Op.leaving, List.getElem?_eq_getElem inside, Op.created, List.append_nil]
    exact List.getElem_cons_eraseIdx_perm inside
  | assign i val =>
    have inside : i < l.length := legal.1
    have moved := List.set_perm_cons_eraseIdx inside (stored zero w val)
    have there := List.getElem_cons_eraseIdx_perm inside
    rw [Op.leaving, List.getElem?_eq_getElem inside]
    calc
      List.Perm (l[i] :: l.set i (stored zero w val)) (l[i] :: stored zero w val :: l.eraseIdx i) :=
        moved.cons _
      List.Perm _ (stored zero w val :: l[i] :: l.eraseIdx i) := List.Perm.swap ..
      List.Perm _ (stored zero w val :: l) := there.cons _
      List.Perm _ (l ++ [stored zero w val]) := (List.perm_append_singleton _ _).symm
  | clear => exact List.Perm.refl _
  | destroy => exact List.Perm.refl _

end Vec

/-! ## Instances -/

/-- A byte with the element instance it belongs to, if it belongs to one. -/
abbrev Cell := UInt8 × Option Nat

/-- A vector with marked bytes, the number of instances stored so far, and the
elements the destructor was called with. -/
structure Life where
  vec : Vec Cell
  next : Nat
  destroyed : List (List Cell)

namespace Life

open Vec

variable {w : Nat}

/-- What `memset` writes for the elements it creates, from instance `next` on. -/
def zeroCell (w next : Nat) (k : Nat) : Cell := (0, some (next + k / w))

/-- What `realloc` leaves behind the old bytes belongs to no instance. -/
def markGrant (g : Grant UInt8) : Grant Cell := ⟨g.address, fun k => (g.fresh k, none)⟩

/-- A value that becomes instance `next` when it is stored. -/
def markElem (next : Nat) (e : Elem UInt8 w) : Elem Cell w :=
  ⟨e.cells.map fun b => (b, some next), by rw [List.length_map, e.length]⟩

/-- What a destructor leaves is no element any more. -/
def markDtor (d : Dtor UInt8) : Dtor Cell := fun e k => (d (e.map Prod.fst) k, none)

def markOp (next : Nat) : Op UInt8 w → Op Cell w
  | .reserve cap g => .reserve cap (g.map markGrant)
  | .resize newSize g => .resize newSize (g.map markGrant)
  | .push val g => .push (val.map (markElem next)) (g.map markGrant)
  | .pop => .pop
  | .insert idx val g => .insert idx (val.map (markElem next)) (g.map markGrant)
  | .erase idx => .erase idx
  | .assign idx val => .assign idx (val.map (markElem next))
  | .shrink g => .shrink (g.map markGrant)
  | .clear => .clear
  | .destroy => .destroy

/-- The elements that a taken call stores. -/
def creates (s : Life) (op : Op UInt8 w) : List (List Cell) :=
  (markOp s.next op).created (zeroCell w s.next) (contents w s.vec)

/-- One call on the marked vector. -/
def step (w : Nat) (d : Dtor UInt8) (s : Life) (op : Op UInt8 w) :
    Except Fault ((Bool × List (List Cell)) × Life) := do
  let (out, vec) ← Vec.step w (zeroCell w s.next) (some (markDtor d)) s.vec (markOp s.next op)
  let stored := if out.1 then (s.creates op).length else 0
  .ok (out, { vec, next := s.next + stored, destroyed := s.destroyed ++ out.2 })

/-- `NAME_init` -/
def init (w cap : Nat) (g : Option (Grant UInt8)) : Life :=
  { vec := (Vec.init w cap (g.map markGrant)).2, next := 0, destroyed := [] }

/-- The instance an element is. -/
def instanceOf (e : List Cell) : Option Nat := e.head?.bind Prod.snd

/-- An element made of the bytes of a single instance. -/
def Whole (w : Nat) (e : List Cell) : Prop :=
  e.length = w ∧ ∃ n, ∀ c ∈ e, c.2 = some n

/-- The elements stored so far, the destroyed ones first. -/
def ledger (w : Nat) (s : Life) : List (List Cell) := s.destroyed ++ contents w s.vec

/-- Every instance stored so far is there once, destroyed or in the vector. -/
structure Ledger (w : Nat) (s : Life) : Prop where
  valid : Valid w s.vec
  whole : ∀ e ∈ s.ledger w, Whole w e
  once : ((s.ledger w).map instanceOf).Perm ((List.range s.next).map some)

/-- An element all of whose bytes are those of instance `n`. -/
theorem instance_of_marked (hw : 0 < w) {e : List Cell} {n : Nat} (length : e.length = w)
    (marked : ∀ c ∈ e, c.2 = some n) : Whole w e ∧ instanceOf e = some n := by
  refine ⟨⟨length, n, marked⟩, ?_⟩
  cases e with
  | nil =>
    rw [List.length_nil] at length
    omega
  | cons c e => exact marked c (List.mem_cons_self ..)

/-- Number `k` of the elements a call stores is instance `next + k`. -/
theorem creates_marked (hw : 0 < w) (s : Life) (op : Op UInt8 w) :
    (∀ e ∈ s.creates op, Whole w e) ∧
      (s.creates op).map instanceOf = (List.range' s.next (s.creates op).length).map some := by
  have one (val : Option (Elem UInt8 w)) :
      Whole w (stored (zeroCell w s.next) w (val.map (markElem s.next))) ∧
        instanceOf (stored (zeroCell w s.next) w (val.map (markElem s.next))) = some s.next := by
    apply instance_of_marked hw (stored_length _ _)
    intro c hc
    cases val with
    | none =>
      obtain ⟨k, hk, rfl⟩ := List.mem_map.1 hc
      rw [zeroCell, Nat.div_eq_of_lt (List.mem_range.1 hk)]
      rfl
    | some e =>
      obtain ⟨b, _, rfl⟩ := List.mem_map.1 hc
      rfl
  have zeroed (k : Nat) : Whole w (zeroElem (zeroCell w s.next) w k) ∧
      instanceOf (zeroElem (zeroCell w s.next) w k) = some (s.next + k) := by
    apply instance_of_marked hw (by simp [zeroElem])
    intro c hc
    obtain ⟨i, hi, rfl⟩ := List.mem_map.1 hc
    rw [zeroCell, Nat.mul_comm, Nat.mul_add_div hw, Nat.div_eq_of_lt (List.mem_range.1 hi)]
    rfl
  have single (val : Option (Elem UInt8 w)) :
      (∀ e ∈ [stored (zeroCell w s.next) w (val.map (markElem s.next))], Whole w e) ∧
        [stored (zeroCell w s.next) w (val.map (markElem s.next))].map instanceOf =
          (List.range' s.next 1).map some := by
    refine ⟨fun e he => ?_, ?_⟩
    · rw [List.mem_singleton.1 he]
      exact (one val).1
    · simp [(one val).2]
  cases op with
  | resize n g =>
    refine ⟨fun e he => ?_, ?_⟩
    · obtain ⟨k, _, rfl⟩ := List.mem_map.1 he
      exact (zeroed k).1
    · simp only [creates, markOp, Op.created, List.map_map, List.length_map, List.length_range]
      rw [List.range'_eq_map_range, List.map_map]
      apply List.map_congr_left
      intro k _
      exact (zeroed k).2
  | push val g => exact single val
  | insert i val g => exact single val
  | assign i val => exact single val
  | reserve cap g => simp [creates, markOp, Op.created]
  | pop => simp [creates, markOp, Op.created]
  | erase i => simp [creates, markOp, Op.created]
  | shrink g => simp [creates, markOp, Op.created]
  | clear => simp [creates, markOp, Op.created]
  | destroy => simp [creates, markOp, Op.created]

/-- What one call does with the destructor: nothing where it fails or where
nothing leaves the list, else it is called with what leaves, in order. -/
structure Destroys (w : Nat) (s : Life) (op : Op UInt8 w) (out : Bool × List (List Cell))
    (t : Life) : Prop where
  log : t.destroyed = s.destroyed ++ out.2
  refused : out.1 = false → out.2 = []
  taken : out.1 = true → out.2 = (markOp s.next op).leaving (contents w s.vec)
  elements : out.1 = true →
    contents w t.vec = (markOp s.next op).after (zeroCell w s.next) (contents w s.vec)
  prompt : (markOp s.next op).Legal (contents w s.vec) → (markOp s.next op).Supplied s.vec →
    out.1 = true

theorem step_ledger (hw : 0 < w) (d : Dtor UInt8) {s : Life} (hs : Ledger w s) (op : Op UInt8 w) :
    ∃ out t, step w d s op = .ok (out, t) ∧ Destroys w s op out t ∧ Ledger w t := by
  obtain ⟨out, vec, hv, refines, valid⟩ := Vec.step_spec (zeroCell w s.next) (some (markDtor d)) hw
    hs.valid (markOp s.next op)
  obtain ⟨marked, numbered⟩ := creates_marked hw s op
  refine ⟨out, _, by simp only [step, hv, ok_bind]; rfl, ?_, ?_⟩
  · exact ⟨rfl, fun no => (refines.refused no).2, refines.destroyed, refines.elements,
      refines.prompt⟩
  · cases taken : out.1 with
    | false =>
      obtain ⟨rfl, quiet⟩ := refines.refused taken
      refine ⟨valid, ?_, ?_⟩
      · simpa [ledger, quiet] using hs.whole
      · simpa [ledger, quiet] using hs.once
    | true =>
      have gone : out.2 = (markOp s.next op).leaving (contents w s.vec) := refines.destroyed taken
      have rearranged := accounted (zeroCell w s.next) (refines.legal taken)
      rw [← refines.elements taken, ← gone] at rearranged
      have all := rearranged.append_left s.destroyed
      rw [← List.append_assoc, ← List.append_assoc] at all
      refine ⟨valid, ?_, ?_⟩
      · intro e he
        rcases List.mem_append.1 (all.mem_iff.1 he) with old | new
        · exact hs.whole e old
        · exact marked e new
      · have counted : (List.range (s.next + (s.creates op).length)).map some =
            (List.range s.next).map some ++ (s.creates op).map instanceOf := by
          rw [numbered, ← List.map_append, List.range_add]
          rw [List.range'_eq_map_range]
        simp only [if_true, counted]
        apply (all.map instanceOf).trans
        show ((s.ledger w ++ s.creates op).map instanceOf).Perm _
        rw [List.map_append]
        exact hs.once.append_right _

theorem init_ledger (hw : 0 < w) (cap : Nat) (g : Option (Grant UInt8)) :
    Ledger w (init w cap g) := by
  have moved := init_moved hw cap (g.map markGrant)
  have empty : ledger w (init w cap g) = [] := moved.contents
  refine ⟨moved.valid, ?_, ?_⟩
  · simp [empty]
  · rw [empty]
    exact List.Perm.refl _

/-- A final `NAME_destroy` leaves no instance behind. -/
theorem destroy_empties (hw : 0 < w) (d : Dtor UInt8) {s : Life} (hs : Ledger w s) :
    ∃ gone t, step w d s .destroy = .ok ((true, gone), t) ∧ Ledger w t ∧ contents w t.vec = [] := by
  obtain ⟨⟨ok, gone⟩, t, ht, destroys, kept⟩ := step_ledger hw d hs .destroy
  obtain rfl : ok = true := destroys.prompt trivial trivial
  exact ⟨gone, t, ht, kept, destroys.elements rfl⟩

/-- In every run on a vector with a destructor each call passes to it exactly the
elements that leave, in order; and at the end of a run that ends with
`NAME_destroy` it was called exactly once with each instance ever stored. -/
theorem destroyed_exactly_once (w : Nat) (hw : 0 < w) (d : Dtor UInt8) (cap : Nat)
    (g : Option (Grant UInt8)) (ops : List (Op UInt8 w)) :
    Lib.Machine.Along (step w d) (Ledger w) (Destroys w) (init w cap g) ops ∧
    ∃ outs t, Lib.Machine.exec (step w d) (init w cap g) (ops ++ [.destroy]) = .ok (outs, t) ∧
      (∀ e ∈ t.destroyed, Whole w e) ∧
      (t.destroyed.map instanceOf).Perm ((List.range t.next).map some) := by
  have keeps (s : Life) (op : Op UInt8 w) (hs : Ledger w s) := step_ledger hw d hs op
  have start := init_ledger hw cap g
  have along := Lib.Machine.along_of_invariant (fun _ hs => hs) keeps start ops
  refine ⟨along, ?_⟩
  obtain ⟨outs, s, hs, kept⟩ := Lib.Machine.exec_of_along along
  obtain ⟨gone, t, ht, all, empty⟩ := destroy_empties hw d kept
  have last : Lib.Machine.exec (step w d) s [.destroy] = .ok ([(true, gone)], t) :=
    Lib.Machine.exec_cons ht rfl
  have destroyed : ledger w t = t.destroyed := by rw [ledger, empty, List.append_nil]
  refine ⟨outs ++ [(true, gone)], t, Lib.Machine.exec_append hs last, ?_, ?_⟩
  · rw [← destroyed]
    exact all.whole
  · rw [← destroyed]
    exact all.once

theorem destroyed_exactly_once_ints :
    ∃ outs t, Lib.Machine.exec (step 1 fun _ _ => 0) (init 1 0 none)
        [.push (some ⟨[7], rfl⟩) (some ⟨64, fun _ => 9⟩), .insert 0 none (some ⟨64, fun _ => 9⟩),
          .assign 1 (some ⟨[7], rfl⟩), .destroy] = .ok (outs, t) ∧
      (∀ e ∈ t.destroyed, Whole 1 e) ∧
      (t.destroyed.map instanceOf).Perm ((List.range t.next).map some) :=
  (destroyed_exactly_once 1 (by decide) (fun _ _ => 0) 0 none
    [.push (some ⟨[7], rfl⟩) (some ⟨64, fun _ => 9⟩), .insert 0 none (some ⟨64, fun _ => 9⟩),
      .assign 1 (some ⟨[7], rfl⟩)]).2

end Life

end Coter
