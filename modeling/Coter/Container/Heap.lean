import Coter.Core.Machine

/-!
# The pairing heap

`ct_heap`: an intrusive pairing heap. The nodes belong to the caller; the heap
links them through `child_`, `left_` and `right_`, where `left_` of a first child
is its parent. A pointer is `none` or the number of a node.
-/

namespace Coter

structure Node where
  child : Option Nat
  left : Option Nat
  right : Option Nat
  deriving DecidableEq, Repr

/-- `ct_heap_t`, less the comparator. -/
structure Heap where
  root : Option Nat
  size : Nat
  deriving DecidableEq, Repr

namespace Heap

/-- The links of all nodes. -/
abbrev Mem := Nat → Node

def Mem.setChild (m : Mem) (x : Nat) (p : Option Nat) : Mem :=
  fun z => if z = x then { m z with child := p } else m z

def Mem.setLeft (m : Mem) (x : Nat) (p : Option Nat) : Mem :=
  fun z => if z = x then { m z with left := p } else m z

def Mem.setRight (m : Mem) (x : Nat) (p : Option Nat) : Mem :=
  fun z => if z = x then { m z with right := p } else m z

/-- `if (p) { p->left_ = l; }` -/
def Mem.relink (m : Mem) (p l : Option Nat) : Mem :=
  match p with
  | none => m
  | some z => m.setLeft z l

/-- `x->child_ = x->left_ = x->right_ = NULL` -/
def Mem.reset (m : Mem) (x : Nat) : Mem :=
  ((m.setRight x none).setLeft x none).setChild x none

section

variable (cmp : Nat → Nat → Int)

/-- `heap_meld`. -/
def meld (m : Mem) (a b : Option Nat) : Mem × Option Nat :=
  match a, b with
  | none, b => (m, b)
  | a, none => (m, a)
  | some a, some b =>
    if cmp a b < 0 then
      let m := m.setRight b (m a).child
      let m := m.relink (m a).child (some b)
      let m := m.setChild a (some b)
      (m.setLeft b (some a), some a)
    else
      let m := m.setRight a (m b).child
      let m := m.relink (m b).child (some a)
      let m := m.setChild b (some a)
      (m.setLeft a (some b), some b)

/-- The first loop of `heap_merge_pairs_iter`: the paired trees are chained
through `right_`, the last one first. -/
def firstPass : Nat → Mem → Option Nat → Option Nat → Except Fault (Mem × Option Nat)
  | _, m, none, treeList => .ok (m, treeList)
  | 0, _, some _, _ => .error .fuel
  | fuel + 1, m, some a, treeList =>
    match (m a).right with
    | some b =>
      let next := (m b).right
      let m := (((m.setRight b none).setLeft b none).setRight a none).setLeft a none
      match meld cmp m (some a) (some b) with
      | (_, none) => .error .null
      | (m, some paired) => firstPass fuel (m.setRight paired treeList) next (some paired)
    | none =>
      let m := (m.setRight a none).setLeft a none
      .ok (m.setRight a treeList, some a)

/-- The second loop. -/
def secondPass : Nat → Mem → Option Nat → Option Nat → Except Fault (Mem × Option Nat)
  | _, m, root, none => .ok (m, root)
  | 0, _, _, some _ => .error .fuel
  | fuel + 1, m, root, some tree =>
    let next := (m tree).right
    let (m, root) := meld cmp (m.setRight tree none) root (some tree)
    secondPass fuel m root next

/-- `heap_merge_pairs_iter`. -/
def mergePairsIter (fuel : Nat) (m : Mem) (first : Option Nat) :
    Except Fault (Mem × Option Nat) :=
  match first with
  | none => .ok (m, none)
  | some _ => do
    let (m, treeList) ← firstPass cmp fuel m first none
    secondPass cmp fuel m none treeList

end

/-- The nodes and the heaps in memory. -/
structure State where
  nodes : Mem
  heaps : Nat → Heap

def State.setHeap (s : State) (h : Nat) (heap : Heap) : State :=
  { s with heaps := fun g => if g = h then heap else s.heaps g }

/-- `ct_heap_init`. -/
def ctInit (s : State) : Option Nat → State
  | none => s
  | some h => s.setHeap h ⟨none, 0⟩

/-- `ct_heap_top`. -/
def top (s : State) : Option Nat → Option Nat
  | none => none
  | some h => (s.heaps h).root

section

variable (cmp : Nat → Nat → Int) (fuel : Nat)

/-- `ct_heap_insert`. -/
protected def insert (s : State) (heap node : Option Nat) : State :=
  match heap, node with
  | some h, some x =>
    let (m, root) := meld cmp (s.nodes.reset x) (s.heaps h).root (some x)
    { s with nodes := m }.setHeap h ⟨root, u32 ((s.heaps h).size + 1)⟩
  | _, _ => s

/-- `ct_heap_pop`. -/
def pop (s : State) (heap : Option Nat) : Except Fault (Option Nat × State) :=
  match heap with
  | none => .ok (none, s)
  | some h =>
    match (s.heaps h).root with
    | none => .ok (none, s)
    | some oldRoot => do
      let children := (s.nodes oldRoot).child
      let (m, root) ← mergePairsIter cmp fuel (s.nodes.relink children none) children
      .ok (some oldRoot,
        { s with nodes := m.reset oldRoot }.setHeap h
          ⟨root, u32 ((s.heaps h).size + (2 ^ 32 - 1))⟩)

/-- The part of `ct_heap_remove` that takes the node out of its list of siblings. -/
def unlink (m : Mem) (x : Nat) : Except Fault Mem :=
  let m := m.relink (m x).right (m x).left
  match (m x).left with
  | none => .error .null
  | some l => .ok (if (m l).child = some x then m.setChild l (m x).right
    else m.setRight l (m x).right)

/-- `ct_heap_remove`. -/
def remove (s : State) (heap node : Option Nat) : Except Fault State :=
  match heap, node with
  | some h, some x =>
    if (s.heaps h).size = 0 then .ok s
    else if some x = (s.heaps h).root then do
      let (_, s) ← pop cmp fuel s heap
      .ok s
    else do
      let m ← unlink s.nodes x
      let children := (m x).child
      let size := u32 ((s.heaps h).size + (2 ^ 32 - 1))
      let (m, remeld) ← mergePairsIter cmp fuel ((m.relink children none).reset x) children
      let (m, root) := meld cmp m (s.heaps h).root remeld
      .ok ({ s with nodes := m }.setHeap h ⟨root, size⟩)
  | _, _ => .ok s

/-- `ct_heap_update`. -/
def update (s : State) (heap node : Option Nat) : Except Fault State :=
  match heap, node with
  | some _, some _ => do
    let s ← remove cmp fuel s heap node
    .ok (Heap.insert cmp s heap node)
  | _, _ => .ok s

/-- `ct_heap_move`. -/
def move (s : State) (dst src : Option Nat) : State :=
  match dst, src with
  | some d, some c =>
    if (s.heaps c).size = 0 then s
    else
      let s' :=
        if (s.heaps d).size = 0 then s.setHeap d ⟨(s.heaps c).root, (s.heaps c).size⟩
        else
          let (m, root) := meld cmp s.nodes (s.heaps d).root (s.heaps c).root
          { s with nodes := m }.setHeap d ⟨root, u32 ((s.heaps d).size + (s.heaps c).size)⟩
      s'.setHeap c ⟨none, 0⟩
  | _, _ => s

end

end Heap

end Coter
