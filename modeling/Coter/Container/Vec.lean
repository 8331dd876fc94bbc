import Coter.Core.Machine
import Coter.Lib.Slots

/-!
# The vector and the dynamic array

`ct_vector_impl_*`, the `CT_VEC_IMPL_DTOR` operations and `ct_array`: elements of
`w` bytes in one reallocated storage.

A cell of the storage is of any type `β`: a byte for the contents, and a byte
with the element instance it belongs to where destructors are counted. `zero k`
is the cell that `memset` leaves at offset `k` of what it fills.
-/

namespace Coter

open Lib.Blocks

/-- `CT_VEC_MEMORY_MAX` -/
def vecMemoryMax : Nat := 0x80000000

/-- A block of the allocator. -/
structure Memory (β : Type) where
  address : Nat
  cells : List β
  deriving DecidableEq, Repr

/-- What `realloc` answers when it does not fail: where the block lies now, and
the unspecified cells behind the old ones. -/
structure Grant (β : Type) where
  address : Nat
  fresh : Nat → β

/-- The generated `NAME_t`. -/
structure Vec (β : Type) where
  ptr : Option (Memory β)
  size : Nat
  cap : Nat
  deriving DecidableEq, Repr

/-- The cells of one element, as a `TYPE` value has them. -/
structure Elem (β : Type) (w : Nat) where
  cells : List β
  length : cells.length = w
  deriving DecidableEq, Repr

/-- A destructor: the cells it leaves in the element it is given. -/
abbrev Dtor (β : Type) := List β → Nat → β

namespace Vec

variable {β : Type}

/-- The cells `ptr_` points to. -/
def cells (v : Vec β) : List β :=
  match v.ptr with
  | none => []
  | some m => m.cells

/-- The elements, from first to last. -/
def contents (w : Nat) (v : Vec β) : List (List β) := slots w v.cells v.size

/-- `realloc` to `n` bytes. -/
def realloc (v : Vec β) (n : Nat) (g : Option (Grant β)) : Option (Memory β) :=
  match g with
  | none => none
  | some g =>
    some ⟨g.address, v.cells.take n ++ (List.range (n - v.cells.length)).map g.fresh⟩

/-- The rounding of `ct_vector_impl_reserve` to a power of two. -/
def roundUp (n : Nat) : Nat :=
  let t := usizeSub n 1
  let t := t ||| t >>> 1
  let t := t ||| t >>> 2
  let t := t ||| t >>> 4
  let t := t ||| t >>> 8
  let t := t ||| t >>> 16
  let t := t ||| t >>> 32
  usize (t + 1)

section impl
variable (w : Nat) (zero : Nat → β)

/-- `ct_vector_impl_reserve` -/
def implReserve (g : Option (Grant β)) (v : Vec β) (newCap : Nat) : Bool × Vec β :=
  if w = 0 then (false, v)
  else if newCap ≤ v.cap then (true, v)
  else if vecMemoryMax / w < newCap then (false, v)
  else
    let targetCap := roundUp newCap
    if targetCap < newCap then (false, v)
    else if vecMemoryMax / w < targetCap then (false, v)
    else match v.realloc (usize (w * targetCap)) g with
      | none => (false, v)
      | some p => (true, { v with ptr := some p, cap := targetCap })

/-- `memcpy`, `memset` or `memmove` of the cells `b` to offset `o` of `ptr_`. -/
def put (v : Vec β) (o : Nat) (b : List β) : Except Fault (Vec β) :=
  match v.ptr with
  | none => .error .null
  | some m => do
    let cells ← store m.cells o b
    .ok { v with ptr := some { m with cells } }

/-- `n` cells at offset `o` of `ptr_`. -/
def get (v : Vec β) (o n : Nat) : Except Fault (List β) :=
  match v.ptr with
  | none => .error .null
  | some m => load m.cells o n

/-- What `memset` to zero writes over `n` cells. -/
def zeros (n : Nat) : List β := (List.range n).map zero

/-- `ct_vector_impl_resize` -/
def implResize (g : Option (Grant β)) (v : Vec β) (newSize : Nat) :
    Except Fault (Bool × Vec β) :=
  if w = 0 then .ok (false, v)
  else
    let (granted, r) := if v.cap < newSize then implReserve w g v newSize else (true, v)
    if !granted then .ok (false, r)
    else if r.size < newSize then do
      let r ← r.put (usize (r.size * w)) (zeros zero (usize (usizeSub newSize r.size * w)))
      .ok (true, { r with size := newSize })
    else .ok (true, { r with size := newSize })

/-- `memmove` of `n` cells within `ptr_`. -/
def move (v : Vec β) (dst src n : Nat) : Except Fault (Vec β) := do
  let moved ← v.get src n
  v.put dst moved

/-- The move of the tail in `ct_vector_impl_insert`. -/
def openGap (v : Vec β) (idx : Nat) : Except Fault (Vec β) :=
  if idx < v.size then
    v.move (usize (usize (idx + 1) * w)) (usize (idx * w)) (usize (usizeSub v.size idx * w))
  else .ok v

/-- The write of the new element in `ct_vector_impl_insert`. -/
def fillGap (v : Vec β) (idx : Nat) (data : Option (List β)) : Except Fault (Vec β) :=
  match data with
  | some data => do
    let elem ← load data 0 w
    v.put (usize (idx * w)) elem
  | none => v.put (usize (idx * w)) (zeros zero w)

/-- `ct_vector_impl_insert` -/
def implInsert (g : Option (Grant β)) (v : Vec β) (idx : Nat) (data : Option (List β)) :
    Except Fault (Bool × Vec β) :=
  if w = 0 then .ok (false, v)
  else if v.size < idx then .ok (false, v)
  else
    let (granted, r) :=
      if v.cap ≤ v.size then implReserve w g v (usize (v.size + 1)) else (true, v)
    if !granted then .ok (false, r)
    else do
      let r ← openGap w r idx
      let r ← fillGap w zero r idx data
      .ok (true, { r with size := usize (r.size + 1) })

/-- The move of the tail in `ct_vector_impl_erase`. -/
def closeGap (v : Vec β) (idx : Nat) : Except Fault (Vec β) :=
  if idx < usizeSub v.size 1 then
    v.move (usize (idx * w)) (usize (usize (idx + 1) * w))
      (usize (usizeSub (usizeSub v.size idx) 1 * w))
  else .ok v

/-- `ct_vector_impl_erase` -/
def implErase (v : Vec β) (idx : Nat) : Except Fault (Bool × Vec β) :=
  if v.ptr.isNone ∨ w = 0 then .ok (false, v)
  else if v.size ≤ idx then .ok (false, v)
  else do
    let v ← closeGap w v idx
    .ok (true, { v with size := usizeSub v.size 1 })

/-- `ct_vector_impl_shrink` -/
def implShrink (g : Option (Grant β)) (v : Vec β) : Bool × Vec β :=
  if w = 0 then (false, v)
  else if v.cap = v.size then (true, v)
  else if v.size = 0 then (true, { v with ptr := none, cap := 0 })
  else match v.realloc (usize (w * v.size)) g with
    | none => (false, v)
    | some p => (true, { v with ptr := some p, cap := v.size })

end impl

section generated
variable (w : Nat) (zero : Nat → β) (dtor : Option (Dtor β))

/-- `dtor(&self->ptr_[i])`: the element passed, and what is left of the vector. -/
def destroyAt (d : Dtor β) (v : Vec β) (i : Nat) : Except Fault (List β × Vec β) := do
  let elem ← v.get (i * w) w
  let v ← v.put (i * w) ((List.range w).map (d elem))
  .ok (elem, v)

/-- `if (dtor) { dtor(&self->ptr_[i]); }` -/
def destroyOne (v : Vec β) (i : Nat) : Except Fault (List (List β) × Vec β) :=
  match dtor with
  | none => .ok ([], v)
  | some d => do
    let (elem, v) ← destroyAt w d v i
    .ok ([elem], v)

/-- The loop that destroys `n` elements from `i` on. -/
def destroyLoop (d : Dtor β) : Nat → Nat → Vec β → Except Fault (List (List β) × Vec β)
  | 0, _, v => .ok ([], v)
  | n + 1, i, v => do
    let (elem, v) ← destroyAt w d v i
    let (elems, v) ← destroyLoop d n (i + 1) v
    .ok (elem :: elems, v)

/-- `if (dtor && self->ptr_)` in front of the loop from `i` to `size_`. -/
def destroyFrom (v : Vec β) (i : Nat) : Except Fault (List (List β) × Vec β) :=
  match dtor, v.ptr with
  | some d, some _ => destroyLoop w d (v.size - i) i v
  | _, _ => .ok ([], v)

/-- `NAME_init`, and whether it returned `0`. -/
def init (cap : Nat) (g : Option (Grant β)) : Bool × Vec β :=
  if 0 < cap then implReserve w g ⟨none, 0, 0⟩ cap else (true, ⟨none, 0, 0⟩)

/-- `NAME_clear`: the elements destroyed, in order. -/
def clear (v : Vec β) : Except Fault (List (List β) × Vec β) := do
  let (gone, v) ← destroyFrom w dtor v 0
  .ok (gone, { v with size := 0 })

/-- `NAME_destroy` -/
def destroy (v : Vec β) : Except Fault (List (List β) × Vec β) := do
  let (gone, _) ← clear w dtor v
  .ok (gone, { ptr := none, size := 0, cap := 0 })

/-- `NAME_resize` -/
def resize (g : Option (Grant β)) (v : Vec β) (newSize : Nat) :
    Except Fault (Bool × List (List β) × Vec β) :=
  if newSize ≤ v.size then do
    let (gone, v) ← destroyFrom w dtor v newSize
    .ok (true, gone, { v with size := newSize })
  else do
    let (ok, v) ← implResize w zero g v newSize
    .ok (ok, [], v)

/-- `NAME_pop` -/
def pop (v : Vec β) : Except Fault (Bool × List (List β) × Vec β) :=
  if v.size = 0 then .ok (false, [], v)
  else do
    let (gone, v) ← destroyOne w dtor v (v.size - 1)
    .ok (true, gone, { v with size := v.size - 1 })

/-- `NAME_erase` -/
def erase (v : Vec β) (idx : Nat) : Except Fault (Bool × List (List β) × Vec β) :=
  if v.size ≤ idx then .ok (false, [], v)
  else do
    let (gone, v) ← destroyOne w dtor v idx
    let (ok, v) ← implErase w v idx
    .ok (ok, gone, v)

/-- `NAME_assign` -/
def assign (v : Vec β) (idx : Nat) (val : Option (Elem β w)) :
    Except Fault (Bool × List (List β) × Vec β) :=
  match val with
  | none => .ok (false, [], v)
  | some tmp =>
    if v.size ≤ idx then .ok (false, [], v)
    else do
      let (gone, v) ← destroyOne w dtor v idx
      let v ← v.put (idx * w) tmp.cells
      .ok (true, gone, v)

/-- A call on a generated vector. Where it may allocate it comes with what the
allocator answers. -/
inductive Op (β : Type) (w : Nat)
  | reserve (cap : Nat) (g : Option (Grant β))
  | resize (newSize : Nat) (g : Option (Grant β))
  | push (val : Option (Elem β w)) (g : Option (Grant β))
  | pop
  | insert (idx : Nat) (val : Option (Elem β w)) (g : Option (Grant β))
  | erase (idx : Nat)
  | assign (idx : Nat) (val : Option (Elem β w))
  | shrink (g : Option (Grant β))
  | clear
  | destroy

/-- One call: what it returns (`true` for the calls without a result) with the
elements it passes to the destructor, and the vector after it. -/
def step (v : Vec β) : Op β w → Except Fault ((Bool × List (List β)) × Vec β)
  | .reserve cap g =>
    let (ok, v) := implReserve w g v cap
    .ok ((ok, []), v)
  | .resize newSize g => do
    let (ok, gone, v) ← resize w zero dtor g v newSize
    .ok ((ok, gone), v)
  | .push val g => do
    let (ok, v) ← implInsert w zero g v v.size (val.map Elem.cells)
    .ok ((ok, []), v)
  | .pop => do
    let (ok, gone, v) ← pop w dtor v
    .ok ((ok, gone), v)
  | .insert idx val g => do
    let (ok, v) ← implInsert w zero g v idx (val.map Elem.cells)
    .ok ((ok, []), v)
  | .erase idx => do
    let (ok, gone, v) ← erase w dtor v idx
    .ok ((ok, gone), v)
  | .assign idx val => do
    let (ok, gone, v) ← assign w dtor v idx val
    .ok ((ok, gone), v)
  | .shrink g =>
    let (ok, v) := implShrink w g v
    .ok ((ok, []), v)
  | .clear => do
    let (gone, v) ← clear w dtor v
    .ok ((true, gone), v)
  | .destroy => do
    let (gone, v) ← destroy w dtor v
    .ok ((true, gone), v)

end generated

end Vec

/-- `ct_array_t` -/
structure CtArray (β : Type) extends Vec β where
  byte : Nat

namespace CtArray

variable {β : Type} {w : Nat} (zero : Nat → β)

/-- `ct_array_init`; `none` when it returns before it writes to the array, else
whether it returned `0`. -/
def init (byte cap : Nat) (g : Option (Grant β)) : Option (Bool × CtArray β) :=
  if byte = 0 then none
  else
    let (ok, v) := if 0 < cap then Vec.implReserve byte g ⟨none, 0, 0⟩ cap else (true, ⟨none, 0, 0⟩)
    some (ok, { v with byte })

/-- `ct_array_pop` -/
def pop (a : CtArray β) : Bool × CtArray β :=
  if a.ptr.isNone ∨ a.size = 0 then (false, a)
  else (true, { a with size := a.size - 1 })

/-- The element that `ct_array_at` points to; `none` where it returns `NULL`. -/
def «at» (a : CtArray β) (idx : Nat) : Except Fault (Option (List β)) :=
  if a.ptr.isNone ∨ a.size ≤ idx then .ok none
  else do
    let elem ← a.get (usize (idx * a.byte)) a.byte
    .ok (some elem)

/-- A call on an array of elements of `w` bytes. -/
inductive Op (β : Type) (w : Nat)
  | reserve (cap : Nat) (g : Option (Grant β))
  | resize (newSize : Nat) (g : Option (Grant β))
  | push (data : Option (Elem β w)) (g : Option (Grant β))
  | pop
  | insert (idx : Nat) (data : Option (Elem β w)) (g : Option (Grant β))
  | erase (idx : Nat)
  | shrink (g : Option (Grant β))
  | clear

/-- One call: what it returns, `true` for `ct_array_clear`, and the array after it. -/
def step (a : CtArray β) : Op β w → Except Fault (Bool × CtArray β)
  | .reserve cap g =>
    let (ok, v) := Vec.implReserve a.byte g a.toVec cap
    .ok (ok, { a with toVec := v })
  | .resize newSize g => do
    let (ok, v) ← Vec.implResize a.byte zero g a.toVec newSize
    .ok (ok, { a with toVec := v })
  | .push data g => do
    let (ok, v) ← Vec.implInsert a.byte zero g a.toVec a.size (data.map Elem.cells)
    .ok (ok, { a with toVec := v })
  | .pop => .ok (pop a)
  | .insert idx data g => do
    let (ok, v) ← Vec.implInsert a.byte zero g a.toVec idx (data.map Elem.cells)
    .ok (ok, { a with toVec := v })
  | .erase idx => do
    let (ok, v) ← Vec.implErase a.byte a.toVec idx
    .ok (ok, { a with toVec := v })
  | .shrink g =>
    let (ok, v) := Vec.implShrink a.byte g a.toVec
    .ok (ok, { a with toVec := v })
  | .clear => .ok (true, { a with size := 0 })

end CtArray

end Coter
