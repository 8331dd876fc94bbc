import Coter.Lib.Comparator

/-!
# Pairing heaps

Pairing heaps as values: a forest is a first tree and the trees after it, so the
trees of a forest are siblings and a heap is a forest of at most one tree.

* `pairUp`, `foldUp`: the two passes that merge the children of a removed root;
* `Cut`: one node taken out of a forest, its children and what is left;
* `nodes_*`, `ordered_*`: each operation keeps the nodes and the heap order;
* `ordered_le`: the root of an ordered tree is a least node.
-/

namespace Lib.PairingHeap

open Lib.Comparator

inductive Forest (α : Type)
  | nil
  | cons (x : α) (child rest : Forest α)

variable {α : Type}

namespace Forest

/-- All nodes of all trees. -/
def nodes : Forest α → Multiset α
  | nil => 0
  | cons x child rest => x ::ₘ (child.nodes + rest.nodes)

/-- At most one tree. -/
def IsRoot : Forest α → Prop
  | nil => True
  | cons _ _ rest => rest = nil

/-- The node is not after any root of the forest. -/
def Above (cmp : α → α → Int) (x : α) : Forest α → Prop
  | nil => True
  | cons y _ rest => cmp x y ≤ 0 ∧ Above cmp x rest

/-- No node is after one of its children. -/
def Ordered (cmp : α → α → Int) : Forest α → Prop
  | nil => True
  | cons x child rest => Above cmp x child ∧ Ordered cmp child ∧ Ordered cmp rest

end Forest

open Forest

/-! ## Melding -/

section Meld

variable (cmp : α → α → Int)

/-- Two trees become one, before `rest`: the root that is before the other, or
else the second root, takes the other one as its first child. -/
def pair (x : α) (c : Forest α) (y : α) (d rest : Forest α) : Forest α :=
  if cmp x y < 0 then cons x (cons y d c) rest else cons y (cons x c d) rest

/-- Two heaps become one. -/
def meld : Forest α → Forest α → Forest α
  | nil, b => b
  | a, nil => a
  | cons x c _, cons y d _ => pair cmp x c y d nil

/-- First pass: adjacent trees are paired, and the pairs pushed onto `acc`. -/
def pairUp : Forest α → Forest α → Forest α
  | nil, acc => acc
  | cons x c nil, acc => cons x c acc
  | cons x c (cons y d rest), acc => pairUp rest (pair cmp x c y d acc)

/-- Second pass: the trees are melded into `root` one by one. -/
def foldUp : Forest α → Forest α → Forest α
  | root, nil => root
  | root, cons x c rest => foldUp (meld cmp root (cons x c nil)) rest

def mergePairs (f : Forest α) : Forest α := foldUp cmp nil (pairUp cmp f nil)

end Meld

variable {cmp : α → α → Int}

@[simp] theorem meld_nil (f : Forest α) : meld cmp f nil = f := by
  cases f <;> rfl

@[simp] theorem nil_meld (f : Forest α) : meld cmp nil f = f := rfl

/-! ## The nodes -/

theorem nodes_cons (x : α) (c r : Forest α) : (cons x c r).nodes = {x} + (c.nodes + r.nodes) :=
  (Multiset.singleton_add x _).symm

theorem nodes_pair (x : α) (c : Forest α) (y : α) (d rest : Forest α) :
    (pair cmp x c y d rest).nodes = ({x} + c.nodes) + ({y} + d.nodes) + rest.nodes := by
  unfold pair
  split <;> simp only [nodes_cons] <;> abel

theorem nodes_meld {a b : Forest α} (ha : a.IsRoot) (hb : b.IsRoot) :
    (meld cmp a b).nodes = a.nodes + b.nodes := by
  cases a with
  | nil => simp [nodes]
  | cons x c r =>
    obtain rfl : r = nil := ha
    cases b with
    | nil => simp [nodes]
    | cons y d t =>
      obtain rfl : t = nil := hb
      simp [meld, nodes_pair, nodes]

theorem nodes_pairUp (f acc : Forest α) : (pairUp cmp f acc).nodes = f.nodes + acc.nodes := by
  fun_induction pairUp cmp f acc with
  | case1 acc => simp [nodes]
  | case2 acc x c => simp [nodes]
  | case3 x c y d rest acc ih =>
    rw [ih, nodes_pair]
    simp only [nodes_cons]
    abel

theorem isRoot_meld {a b : Forest α} (ha : a.IsRoot) (hb : b.IsRoot) :
    (meld cmp a b).IsRoot := by
  cases a with
  | nil => exact hb
  | cons x c r =>
    cases b with
    | nil => exact ha
    | cons y d t =>
      dsimp only [meld, pair]
      split <;> rfl

theorem isRoot_foldUp {root : Forest α} (hr : root.IsRoot) (f : Forest α) :
    (foldUp cmp root f).IsRoot := by
  fun_induction foldUp cmp root f with
  | case1 root => exact hr
  | case2 root x c rest ih => exact ih (isRoot_meld hr rfl)

theorem nodes_foldUp {root : Forest α} (hr : root.IsRoot) (f : Forest α) :
    (foldUp cmp root f).nodes = root.nodes + f.nodes := by
  fun_induction foldUp cmp root f with
  | case1 root => simp [nodes]
  | case2 root x c rest ih =>
    have single : (cons x c nil : Forest α).IsRoot := rfl
    rw [ih (isRoot_meld hr single), nodes_meld hr single]
    simp only [nodes_cons, show (nil : Forest α).nodes = 0 from rfl]
    abel

theorem isRoot_nil : (nil : Forest α).IsRoot := trivial

theorem isRoot_mergePairs (f : Forest α) : (mergePairs cmp f).IsRoot :=
  isRoot_foldUp isRoot_nil _

theorem nodes_mergePairs (f : Forest α) : (mergePairs cmp f).nodes = f.nodes := by
  rw [mergePairs, nodes_foldUp isRoot_nil, nodes_pairUp]
  simp [nodes]

/-! ## The order -/

theorem ordered_pair (hcmp : TotalPreorder cmp) {x y : α} {c d rest : Forest α}
    (hx : Above cmp x c) (hc : Ordered cmp c) (hy : Above cmp y d) (hd : Ordered cmp d)
    (hr : Ordered cmp rest) : Ordered cmp (pair cmp x c y d rest) := by
  unfold pair
  split
  · rename_i hlt
    exact ⟨⟨by omega, hx⟩, ⟨hy, hd, hc⟩, hr⟩
  · rename_i hge
    exact ⟨⟨hcmp.not_before.1 hge, hy⟩, ⟨hx, hc, hd⟩, hr⟩

theorem ordered_meld (hcmp : TotalPreorder cmp) {a b : Forest α} (ha : Ordered cmp a)
    (hb : Ordered cmp b) : Ordered cmp (meld cmp a b) := by
  cases a with
  | nil => exact hb
  | cons x c r =>
    cases b with
    | nil => exact ha
    | cons y d t => exact ordered_pair hcmp ha.1 ha.2.1 hb.1 hb.2.1 trivial

theorem ordered_pairUp (hcmp : TotalPreorder cmp) {f acc : Forest α} (hf : Ordered cmp f)
    (hacc : Ordered cmp acc) : Ordered cmp (pairUp cmp f acc) := by
  fun_induction pairUp cmp f acc with
  | case1 acc => exact hacc
  | case2 acc x c => exact ⟨hf.1, hf.2.1, hacc⟩
  | case3 acc x c y d rest ih =>
    obtain ⟨hx, hc, hy, hd, hrest⟩ := hf
    exact ih hrest (ordered_pair hcmp hx hc hy hd hacc)

theorem ordered_foldUp (hcmp : TotalPreorder cmp) {root f : Forest α} (hr : Ordered cmp root)
    (hf : Ordered cmp f) : Ordered cmp (foldUp cmp root f) := by
  fun_induction foldUp cmp root f with
  | case1 root => exact hr
  | case2 root x c rest ih =>
    obtain ⟨hx, hc, hrest⟩ := hf
    exact ih (ordered_meld hcmp hr ⟨hx, hc, trivial⟩) hrest

theorem ordered_mergePairs (hcmp : TotalPreorder cmp) {f : Forest α} (hf : Ordered cmp f) :
    Ordered cmp (mergePairs cmp f) :=
  ordered_foldUp hcmp trivial (ordered_pairUp hcmp hf trivial)

/-- A node above the roots of an ordered forest is above all its nodes. -/
theorem ordered_le (hcmp : TotalPreorder cmp) {x : α} {f : Forest α} (hx : Above cmp x f)
    (hf : Ordered cmp f) : ∀ y ∈ f.nodes, cmp x y ≤ 0 := by
  induction f generalizing x with
  | nil => simp [nodes]
  | cons z c r ihc ihr =>
    intro y hy
    simp only [nodes, Multiset.mem_cons, Multiset.mem_add] at hy
    obtain rfl | hy | hy := hy
    · exact hx.1
    · exact hcmp.trans x z y hx.1 (ihc hf.1 hf.2.1 y hy)
    · exact ihr hx.2 hf.2.2 y hy

theorem above_congr {cmp' : α → α → Int} {x : α} {f : Forest α}
    (h : ∀ y ∈ f.nodes, cmp' x y = cmp x y) (hf : Above cmp x f) : Above cmp' x f := by
  induction f with
  | nil => trivial
  | cons y c r _ ihr =>
    constructor
    · rw [h y (by simp [nodes])]
      exact hf.1
    · apply ihr _ hf.2
      intro z hz
      exact h z (by simp [nodes, hz])

/-- The order only depends on how the nodes of the forest compare. -/
theorem ordered_congr {cmp' : α → α → Int} {f : Forest α}
    (h : ∀ x ∈ f.nodes, ∀ y ∈ f.nodes, cmp' x y = cmp x y) (hf : Ordered cmp f) :
    Ordered cmp' f := by
  induction f with
  | nil => trivial
  | cons x c r ihc ihr =>
    have inChild (y : α) (hy : y ∈ c.nodes) : y ∈ (cons x c r).nodes := by simp [nodes, hy]
    have inRest (y : α) (hy : y ∈ r.nodes) : y ∈ (cons x c r).nodes := by simp [nodes, hy]
    have root : x ∈ (cons x c r).nodes := by simp [nodes]
    constructor
    · exact above_congr (fun y hy => h x root y (inChild y hy)) hf.1
    · constructor
      · exact ihc (fun y hy z hz => h y (inChild y hy) z (inChild z hz)) hf.2.1
      · exact ihr (fun y hy z hz => h y (inRest y hy) z (inRest z hz)) hf.2.2

/-! ## Taking out a node -/

/-- `Cut x f c f'`: the node `x` of `f` has the children `c`, and `f'` is `f`
without the tree of `x`. -/
inductive Cut (x : α) : Forest α → Forest α → Forest α → Prop
  | here (c r : Forest α) : Cut x (cons x c r) c r
  | child (y : α) {c r d c' : Forest α} : Cut x c d c' → Cut x (cons y c r) d (cons y c' r)
  | rest (y : α) {c r d r' : Forest α} : Cut x r d r' → Cut x (cons y c r) d (cons y c r')

theorem exists_cut {x : α} {f : Forest α} (h : x ∈ f.nodes) : ∃ c f', Cut x f c f' := by
  induction f with
  | nil => simp [nodes] at h
  | cons y c r ihc ihr =>
    simp only [nodes, Multiset.mem_cons, Multiset.mem_add] at h
    obtain rfl | h | h := h
    · exact ⟨c, r, .here c r⟩
    · obtain ⟨d, c', hcut⟩ := ihc h
      exact ⟨d, cons y c' r, .child y hcut⟩
    · obtain ⟨d, r', hcut⟩ := ihr h
      exact ⟨d, cons y c r', .rest y hcut⟩

variable {x : α} {f c f' : Forest α}

theorem nodes_cut (h : Cut x f c f') : f.nodes = {x} + (c.nodes + f'.nodes) := by
  induction h with
  | here c r => exact nodes_cons x c r
  | child y _ ih =>
    simp only [nodes_cons, ih]
    abel
  | rest y _ ih =>
    simp only [nodes_cons, ih]
    abel

theorem above_cut (h : Cut x f c f') {y : α} (hf : Above cmp y f) : Above cmp y f' := by
  induction h with
  | here c r => exact hf.2
  | child z _ _ => exact hf
  | rest z _ ih => exact ⟨hf.1, ih hf.2⟩

theorem ordered_cut (h : Cut x f c f') (hf : Ordered cmp f) :
    Ordered cmp c ∧ Ordered cmp f' := by
  induction h with
  | here c r => exact hf.2
  | child y hcut ih =>
    obtain ⟨hd, hc'⟩ := ih hf.2.1
    exact ⟨hd, above_cut hcut hf.1, hc', hf.2.2⟩
  | rest y _ ih =>
    obtain ⟨hd, hr'⟩ := ih hf.2.2
    exact ⟨hd, hf.1, hf.2.1, hr'⟩

end Lib.PairingHeap
