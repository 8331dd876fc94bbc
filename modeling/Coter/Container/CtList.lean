import Coter.Core.Machine
import Coter.Lib.Links

/-!
# The intrusive list

`ct_list`: nodes and list heads are cells of one type with a link in each
direction. All pointers a call is given are taken to be non-null.
-/

namespace Coter

open Lib

/-- An address of a `ct_list_t`. -/
abbrev Addr := Fin (2 ^ 64)

namespace CtList

/-- `prev_` and `next_` of every `ct_list_t`. -/
abbrev Heap := Links Addr

variable (l : Heap)

/-- `ct_list_init` -/
def init (self : Addr) : Heap := (l.setNext self self).setPrev self self

/-- `ct_list_append` -/
def append (self node : Addr) : Heap :=
  let l := l.setPrev node (l.prev self)
  let l := l.setNext node self
  let l := l.setNext (l.prev self) node
  l.setPrev self node

/-- `ct_list_prepend` -/
def prepend (self node : Addr) : Heap :=
  let l := l.setPrev node self
  let l := l.setNext node (l.next self)
  let l := l.setPrev (l.next self) node
  l.setNext self node

/-- `ct_list_before` -/
def before (target node : Addr) : Heap :=
  let l := l.setPrev node (l.prev target)
  let l := l.setNext node target
  let l := l.setNext (l.prev target) node
  l.setPrev target node

/-- `ct_list_after` -/
def after (target node : Addr) : Heap :=
  let l := l.setPrev node target
  let l := l.setNext node (l.next target)
  let l := l.setPrev (l.next target) node
  l.setNext target node

/-- `ct_list_remove` -/
def remove (node : Addr) : Heap :=
  let l := l.setNext (l.prev node) (l.next node)
  l.setPrev (l.next node) (l.prev node)

/-- `ct_list_splice_prev` -/
def splicePrev (self list : Addr) : Heap :=
  if l.next list = list then l
  else
    let l := l.setNext (l.prev list) (l.next self)
    let l := l.setPrev (l.next self) (l.prev list)
    let l := l.setPrev (l.next list) self
    let l := l.setNext self (l.next list)
    init l list

/-- `ct_list_splice_next` -/
def spliceNext (self list : Addr) : Heap :=
  if l.next list = list then l
  else
    let l := l.setPrev (l.next list) (l.prev self)
    let l := l.setNext (l.prev self) (l.next list)
    let l := l.setNext (l.prev list) self
    let l := l.setPrev self (l.prev list)
    init l list

/-- The loop of `ct_list_size`; `none` where `fuel` turns are not enough. -/
def sizeLoop (self : Addr) : Nat → Addr → Nat → Option Nat
  | 0, _, _ => none
  | fuel + 1, node, size =>
    if node = self then some size else sizeLoop self fuel (l.next node) (usize (size + 1))

/-- `ct_list_size` -/
def size (fuel : Nat) (self : Addr) : Option Nat := sizeLoop l self fuel (l.next self) 0

inductive Op
  | init (self : Addr)
  | append (self node : Addr)
  | prepend (self node : Addr)
  | before (target node : Addr)
  | after (target node : Addr)
  | remove (node : Addr)
  | splicePrev (self list : Addr)
  | spliceNext (self list : Addr)
  deriving DecidableEq, Repr

def step : Op → Heap
  | .init self => init l self
  | .append self node => append l self node
  | .prepend self node => prepend l self node
  | .before target node => before l target node
  | .after target node => after l target node
  | .remove node => remove l node
  | .splicePrev self list => splicePrev l self list
  | .spliceNext self list => spliceNext l self list

end CtList

end Coter
