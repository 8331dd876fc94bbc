import Coter.Core.Machine

/-!
# The priority queue

`ct_pqueue`: elements of `itemSize` bytes in one flat storage, kept as a 4-ary
heap by a caller's comparator. Byte offsets and capacities are `uint32_t`.
-/

namespace Coter

/-- The bytes of one element. -/
abbrev Item := List UInt8

/-- What the allocator answers during one call: whether the scratch element is
granted, and for a growth either failure or the bytes behind the old ones. -/
structure Alloc where
  scratch : Bool
  grown : Option (Nat → UInt8)

structure PQueue where
  all : List UInt8
  cmp : Item → Item → Int
  size : Nat
  cap : Nat
  itemSize : Nat
  isDynamic : Bool

/-- `realloc`: the old bytes as far as they fit, then unspecified ones. -/
def realloc (all : List UInt8) (bytes : Nat) (fresh : Nat → UInt8) : List UInt8 :=
  all.take bytes ++ (List.range (bytes - all.length)).map fresh

namespace PQueue

/-- The stride of a queue of `type` bytes: `(sizeof(type_) + 3) & ~3`. -/
def stride (type : Nat) : Nat := (type + 3) / 4 * 4

/-- `ct_pqueue_init`. -/
def init (type : Nat) (cmp : Item → Item → Int) : PQueue :=
  { all := [], cmp, size := 0, cap := 0, itemSize := stride type, isDynamic := true }

/-- `ct_pqueue_init_s`, over the caller's bytes `buf`. -/
def initS (type : Nat) (buf : List UInt8) (cap : Nat) (cmp : Item → Item → Int) : PQueue :=
  { all := buf, cmp, size := 0, cap := u32 cap, itemSize := stride type, isDynamic := false }

section
variable (cmp : Item → Item → Int) (w : Nat)

/-- Where element `i` starts: `i * item_size_`. -/
def offset (i : Nat) : Nat := u32 (i * w)

/-- The loop of `pqueue_sift_up`: the storage and the hole it ends with. -/
def siftUpLoop : Nat → List UInt8 → Nat → Item → Except Fault (List UInt8 × Nat)
  | 0, _, _, _ => .error .fuel
  | fuel + 1, all, idx, tmp =>
    if 0 < idx then do
      let parent := (idx - 1) / 4
      let above ← load all (offset w parent) w
      if 0 ≤ cmp tmp above then .ok (all, idx)
      else do
        let all ← store all (offset w idx) above
        siftUpLoop fuel all parent tmp
    else .ok (all, idx)

/-- One turn of the inner `for` of `pqueue_sift_down`. -/
def smallestStep (size : Nat) (all : List UInt8) (idx smallest i : Nat) : Except Fault Nat :=
  let child := u32 (4 * idx + i)
  if size ≤ child then .ok smallest
  else do
    let c ← load all (offset w child) w
    let s ← load all (offset w smallest) w
    .ok (if cmp c s < 0 then child else smallest)

/-- The inner `for` of `pqueue_sift_down`, which starts from the hole itself. -/
def smallestChild (size : Nat) (all : List UInt8) (idx : Nat) : Except Fault Nat :=
  [1, 2, 3, 4].foldlM (smallestStep cmp w size all idx) idx

/-- The loop of `pqueue_sift_down`. The slot of the hole still holds the element
that was last copied up, and `smallestChild` compares against it. -/
def siftDownLoop (size : Nat) :
    Nat → List UInt8 → Nat → Item → Except Fault (List UInt8 × Nat)
  | 0, _, _, _ => .error .fuel
  | fuel + 1, all, idx, tmp => do
    let smallest ← smallestChild cmp w size all idx
    if smallest = idx then .ok (all, idx)
    else do
      let s ← load all (offset w smallest) w
      if cmp tmp s ≤ 0 then .ok (all, idx)
      else do
        let all ← store all (offset w idx) s
        siftDownLoop size fuel all smallest tmp

end

/-- `pqueue_sift_up`. -/
def siftUp (a : Alloc) (q : PQueue) (idx : Nat) : Except Fault PQueue := do
  if !a.scratch then .error .null
  else do
    let tmp ← load q.all (offset q.itemSize idx) q.itemSize
    let (all, hole) ← siftUpLoop q.cmp q.itemSize (idx + 1) q.all idx tmp
    let all ← store all (offset q.itemSize hole) tmp
    .ok { q with all }

/-- `pqueue_sift_down`. -/
def siftDown (a : Alloc) (q : PQueue) (idx : Nat) : Except Fault PQueue := do
  if !a.scratch then .error .null
  else do
    let tmp ← load q.all (offset q.itemSize idx) q.itemSize
    let (all, hole) ← siftDownLoop q.cmp q.itemSize q.size (q.size + 1) q.all idx tmp
    let all ← store all (offset q.itemSize hole) tmp
    .ok { q with all }

/-- `ct_pqueue_reserve`. Where the byte count wraps to 0, the `realloc` that returns `NULL` has
freed the storage. -/
def reserve (a : Alloc) (q : PQueue) (newCap : Nat) : Bool × PQueue :=
  if !q.isDynamic then (false, q)
  else if newCap ≤ q.cap then (true, q)
  else match a.grown with
    | none => (false, if u32 (newCap * q.itemSize) = 0 then { q with all := [] } else q)
    | some fresh =>
      (true, { q with all := realloc q.all (u32 (newCap * q.itemSize)) fresh, cap := newCap })

/-- The capacity `ct_pqueue_push` asks for when the queue is full. -/
def nextCap (q : PQueue) : Nat := if q.cap = 0 then 8 else u32 (q.cap * 2)

/-- The part of `ct_pqueue_push` behind the check for room. -/
def append (a : Alloc) (q : PQueue) (data : Item) : Except Fault (Bool × PQueue) := do
  let item ← load data 0 q.itemSize
  let all ← store q.all (offset q.itemSize q.size) item
  let q ← siftUp a { q with all, size := u32 (q.size + 1) } q.size
  .ok (true, q)

/-- `ct_pqueue_push` of the element `data` points to. -/
def push (a : Alloc) (q : PQueue) (data : Item) : Except Fault (Bool × PQueue) :=
  if q.size = q.cap then
    if !q.isDynamic then .ok (false, q)
    else
      let (granted, q) := reserve a q q.nextCap
      if !granted then .ok (false, q) else append a q data
  else append a q data

/-- `ct_pqueue_pop`: the element copied out, if there was one. -/
def pop (a : Alloc) (q : PQueue) : Except Fault (Option Item × PQueue) :=
  if q.size = 0 then .ok (none, q)
  else do
    let out ← load q.all 0 q.itemSize
    let size := q.size - 1
    if 0 < size then do
      let last ← load q.all (offset q.itemSize size) q.itemSize
      let all ← store q.all 0 last
      let q ← siftDown a { q with all, size } 0
      .ok (some out, q)
    else .ok (some out, { q with size })

/-- `ct_pqueue_top`: the element the returned pointer designates. -/
def top (q : PQueue) : Option Item :=
  if q.size = 0 then none else some (Lib.Blocks.read q.all 0 q.itemSize)

/-- `ct_pqueue_clear`. -/
def clear (q : PQueue) : PQueue := { q with size := 0 }

end PQueue

end Coter
