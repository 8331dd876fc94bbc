import Coter.Container.HeapLinks
import Coter.Lib.Machine

/-!
# Runs of the pairing heap

Several heaps share the nodes and one comparator of keys. `World` records beside
the memory which nodes are members of which heap.

* `Tree`: the links of a heap form an ordered tree over its members;
* `pop_tree`, `remove_tree`, `insert_tree`, `move_tree`: what each call does to it;
* `heap_runs`: every run of calls keeps all heaps well formed.
-/

namespace Coter.Heap

open Lib.PairingHeap Lib.PairingHeap.Forest Lib.Comparator Lib.Machine

/-- The heap is a tree over exactly the nodes `S`, in heap order. -/
structure Tree (cmp : Nat → Nat → Int) (m : Mem) (heap : Heap) (S : Finset Nat)
    (f : Forest Nat) : Prop where
  root : f.IsRoot
  links : Links m (.linked none) heap.root f
  nodes : f.nodes = S.val
  ordered : Ordered cmp f
  size : heap.size = S.card
  small : S.card < 2 ^ 32

variable {cmp cmp' : Nat → Nat → Int} {m m' : Mem} {heap : Heap} {S : Finset Nat}
  {f : Forest Nat} {x : Nat}

theorem Tree.mem (t : Tree cmp m heap S f) : x ∈ f.nodes ↔ x ∈ S := by
  rw [t.nodes, Finset.mem_val]

theorem Tree.nodup (t : Tree cmp m heap S f) : f.nodes.Nodup := t.nodes ▸ S.nodup

/-- Only the members matter, and only how they compare. -/
theorem Tree.frame (t : Tree cmp m heap S f) (hm : ∀ z ∈ S, m' z = m z)
    (hcmp : ∀ a ∈ S, ∀ b ∈ S, cmp' a b = cmp a b) : Tree cmp' m' heap S f where
  root := t.root
  links := links_frame (fun z hz => hm z (t.mem.1 hz)) t.links
  nodes := t.nodes
  ordered := ordered_congr (fun a ha b hb => hcmp a (t.mem.1 ha) b (t.mem.1 hb)) t.ordered
  size := t.size
  small := t.small

theorem Tree.root_none (t : Tree cmp m heap S f) (h : heap.root = none) : S = ∅ := by
  have hlinks := t.links
  cases f with
  | nil => exact Finset.val_eq_zero.1 t.nodes.symm
  | cons x c r =>
    have := hlinks.1
    rw [h] at this
    cases this

theorem Tree.root_some (t : Tree cmp m heap S f) (h : heap.root = some x) :
    ∃ c, f = cons x c nil ∧ x ∈ S := by
  have hlinks := t.links
  have hroot := t.root
  cases f with
  | nil =>
    have empty : heap.root = none := hlinks
    rw [h] at empty
    cases empty
  | cons y c r =>
    obtain rfl : r = nil := hroot
    have hy := hlinks.1
    rw [h] at hy
    obtain rfl := Option.some.inj hy
    exact ⟨c, rfl, t.mem.1 (by simp [Forest.nodes])⟩

/-- `ct_heap_top` is a minimum. -/
theorem Tree.root_le (hcmp : TotalPreorder cmp) (t : Tree cmp m heap S f)
    (h : heap.root = some x) : ∀ y ∈ S, cmp x y ≤ 0 := by
  obtain ⟨c, rfl, -⟩ := t.root_some h
  obtain ⟨habove, hc, -⟩ := t.ordered
  intro y hy
  have hy' := t.mem.2 hy
  simp only [Forest.nodes, add_zero, Multiset.mem_cons] at hy'
  obtain rfl | hy' := hy'
  · exact hcmp.refl y
  · exact ordered_le hcmp habove hc y hy'

/-! ## The calls -/

theorem insert_tree (hcmp : TotalPreorder cmp) (t : Tree cmp m heap S f) (hx : x ∉ S)
    (hsmall : S.card + 1 < 2 ^ 32) :
    Tree cmp (meld cmp (m.reset x) heap.root (some x)).1
        ⟨(meld cmp (m.reset x) heap.root (some x)).2, u32 (heap.size + 1)⟩ (insert x S)
        (Lib.PairingHeap.meld cmp f (cons x nil nil)) ∧
      ∀ z, z ∉ insert x S → (meld cmp (m.reset x) heap.root (some x)).1 z = m z := by
  have single : (cons x nil nil : Forest Nat).IsRoot := rfl
  have hxf : x ∉ f.nodes := mt t.mem.1 hx
  have hold : Links (m.reset x) (.linked none) heap.root f :=
    links_frame (fun z hz => reset_off (by rintro rfl; exact hxf hz)) t.links
  have hnew : Links (m.reset x) (.linked none) (some x) (cons x nil nil) := by
    simp [Links, Back.Ok, Mem.reset, Mem.setChild, Mem.setLeft, Mem.setRight]
  have hn : (f.nodes + (cons x nil nil : Forest Nat).nodes).Nodup := by
    rw [add_comm]
    simpa [Forest.nodes, hxf] using t.nodup
  obtain ⟨hlinks, off⟩ := meld_links cmp hold t.root hnew single hn
  have hcard : (insert x S).card = S.card + 1 := Finset.card_insert_of_notMem hx
  constructor
  · constructor
    · exact isRoot_meld t.root single
    · exact hlinks
    · rw [nodes_meld t.root single, Finset.insert_val_of_notMem hx, t.nodes, add_comm]
      simp [Forest.nodes]
    · exact ordered_meld hcmp t.ordered ⟨trivial, trivial, trivial⟩
    · rw [hcard, t.size, u32_of_lt hsmall]
    · omega
  · intro z hz
    simp only [Finset.mem_insert, not_or] at hz
    rw [off z, reset_off hz.1]
    simp [Forest.nodes, t.mem, hz]

/-- The two heaps become one. -/
theorem move_tree {heap' : Heap} {S' : Finset Nat} {f' : Forest Nat} (hcmp : TotalPreorder cmp)
    (t : Tree cmp m heap S f) (t' : Tree cmp m heap' S' f') (apart : Disjoint S S')
    (hsmall : S.card + S'.card < 2 ^ 32) :
    Tree cmp (meld cmp m heap.root heap'.root).1
        ⟨(meld cmp m heap.root heap'.root).2, u32 (heap.size + heap'.size)⟩ (S ∪ S')
        (Lib.PairingHeap.meld cmp f f') ∧
      ∀ z, z ∉ S ∪ S' → (meld cmp m heap.root heap'.root).1 z = m z := by
  have hboth : f.nodes + f'.nodes = (S ∪ S').val := by
    rw [t.nodes, t'.nodes, ← Finset.disjUnion_eq_union S S' apart]
    rfl
  have hcard : (S ∪ S').card = S.card + S'.card := Finset.card_union_of_disjoint apart
  obtain ⟨hlinks, off⟩ :=
    meld_links cmp t.links t.root t'.links t'.root (hboth ▸ (S ∪ S').nodup)
  constructor
  · constructor
    · exact isRoot_meld t.root t'.root
    · exact hlinks
    · rw [nodes_meld t.root t'.root, hboth]
    · exact ordered_meld hcmp t.ordered t'.ordered
    · rw [hcard, t.size, t'.size, u32_of_lt hsmall]
    · omega
  · intro z hz
    apply off
    rwa [hboth]

/-- The children of a removed node, merged. They are in order even if the key of
the removed node has changed. -/
theorem merged_tree {fuel : Nat} {p : Option Nat} {c : Forest Nat} (hcmp' : TotalPreorder cmp')
    (same : ∀ a, a ≠ x → ∀ b, b ≠ x → cmp' a b = cmp a b) (hlinks : Links m .stale p c)
    (hn : c.nodes.Nodup) (hx : x ∉ c.nodes) (hord : Ordered cmp c)
    (hfuel : c.nodes.card ≤ fuel) :
    ∃ m' q, mergePairsIter cmp' fuel m p = .ok (m', q) ∧
      Links m' (.linked none) q (mergePairs cmp' c) ∧ Ordered cmp' (mergePairs cmp' c) ∧
      ∀ z, z ∉ c.nodes → m' z = m z := by
  obtain ⟨m', q, hrun, hmerged, off⟩ := mergePairsIter_links cmp' hn hlinks hfuel
  refine ⟨m', q, hrun, hmerged, ?_, off⟩
  apply ordered_mergePairs hcmp'
  apply ordered_congr _ hord
  intro a ha b hb
  exact same a (by rintro rfl; exact hx ha) b (by rintro rfl; exact hx hb)

theorem val_erase {c f' : Forest Nat} (t : Tree cmp m heap S f)
    (h : f.nodes = {x} + (c.nodes + f'.nodes)) : c.nodes + f'.nodes = (S.erase x).val := by
  rw [Finset.erase_val, ← t.nodes, h, Multiset.singleton_add, Multiset.erase_cons_head]

theorem Tree.size_erase (t : Tree cmp m heap S f) (hx : x ∈ S) :
    u32 (heap.size + (2 ^ 32 - 1)) = (S.erase x).card := by
  have pos : 0 < S.card := Finset.card_pos.2 ⟨x, hx⟩
  have := t.small
  rw [t.size, u32_pred pos (by omega), Finset.card_erase_of_mem hx]

theorem setHeap_same (s : State) (h : Nat) (heap : Heap) : (s.setHeap h heap).heaps h = heap := by
  simp [State.setHeap]

theorem setHeap_other (s : State) {g h : Nat} (heap : Heap) (hg : g ≠ h) :
    (s.setHeap h heap).heaps g = s.heaps g := by
  simp [State.setHeap, hg]

theorem setHeap_self (s : State) (h : Nat) : s.setHeap h (s.heaps h) = s := by
  unfold State.setHeap
  congr 1
  funext g
  split
  · rename_i hg
    rw [hg]
  · rfl

theorem setHeap_twice (s : State) (m m' : Mem) (h : Nat) (heap heap' : Heap) :
    { ({ s with nodes := m }.setHeap h heap) with nodes := m' }.setHeap h heap' =
      { s with nodes := m' }.setHeap h heap' := by
  unfold State.setHeap
  congr 1
  funext g
  by_cases hg : g = h <;> simp [hg]

section Calls

variable {s : State} {h fuel : Nat}

theorem pop_tree (hcmp' : TotalPreorder cmp')
    (same : ∀ a, a ≠ x → ∀ b, b ≠ x → cmp' a b = cmp a b)
    (t : Tree cmp s.nodes (s.heaps h) S f) (hroot : (s.heaps h).root = some x)
    (hfuel : S.card ≤ fuel) :
    ∃ m' heap' f', pop cmp' fuel s (some h) =
        .ok (some x, { s with nodes := m' }.setHeap h heap') ∧
      Tree cmp' m' heap' (S.erase x) f' ∧ ∀ z, z ∉ S → m' z = s.nodes z := by
  obtain ⟨c, rfl, hx⟩ := t.root_some hroot
  obtain ⟨-, -, hc, -⟩ := t.links
  obtain ⟨hnc, -, hxc, -, -⟩ := nodup_child t.nodup
  have hnodes : (cons x c nil).nodes = {x} + (c.nodes + (nil : Forest Nat).nodes) :=
    nodes_cons x c nil
  have hval := val_erase t hnodes
  rw [nodes_nil, add_zero] at hval
  have hcard : c.nodes.card = (S.erase x).card := congrArg Multiset.card hval
  have hle : (S.erase x).card ≤ S.card := Finset.card_erase_le
  obtain ⟨m', q, hrun, hmerged, hord, off⟩ := merged_tree hcmp' same
    (links_stale (links_relink none hnc hc)) hnc hxc t.ordered.2.1
    (by omega : c.nodes.card ≤ fuel)
  refine ⟨m'.reset x, ⟨q, u32 ((s.heaps h).size + (2 ^ 32 - 1))⟩, mergePairs cmp' c, ?_, ?_, ?_⟩
  · simp only [pop, hroot, hrun, ok_bind]
  · constructor
    · exact isRoot_mergePairs c
    · apply links_frame _ hmerged
      intro z hz
      rw [nodes_mergePairs] at hz
      exact reset_off (by rintro rfl; exact hxc hz)
    · rw [nodes_mergePairs, hval]
    · exact hord
    · exact t.size_erase hx
    · have := t.small
      omega
  · intro z hz
    have hzf : z ∉ (cons x c nil).nodes := mt t.mem.1 hz
    have hzx : z ≠ x ∧ z ∉ c.nodes := by simpa [Forest.nodes] using hzf
    rw [reset_off hzx.1, off z hzx.2, relink_off (links_ne hc hzx.2)]

theorem remove_tree (hcmp' : TotalPreorder cmp')
    (same : ∀ a, a ≠ x → ∀ b, b ≠ x → cmp' a b = cmp a b)
    (t : Tree cmp s.nodes (s.heaps h) S f) (hx : x ∈ S) (hfuel : S.card ≤ fuel) :
    ∃ m' heap' f', remove cmp' fuel s (some h) (some x) =
        .ok ({ s with nodes := m' }.setHeap h heap') ∧
      Tree cmp' m' heap' (S.erase x) f' ∧ ∀ z, z ∉ S → m' z = s.nodes z := by
  have hsize : (s.heaps h).size ≠ 0 := by
    rw [t.size]
    exact (Finset.card_pos.2 ⟨x, hx⟩).ne'
  by_cases hroot : (s.heaps h).root = some x
  · obtain ⟨m', heap', f', hpop, htree, off⟩ := pop_tree hcmp' same t hroot hfuel
    refine ⟨m', heap', f', ?_, htree, off⟩
    simp only [remove, if_neg hsize, if_pos hroot.symm, hpop, ok_bind]
  · obtain ⟨c, f', hcut⟩ := exists_cut (t.mem.2 hx)
    have hnodes := nodes_cut hcut
    have hval := val_erase t hnodes
    have hn := t.nodup
    rw [hnodes, Multiset.singleton_add, Multiset.nodup_cons, Multiset.mem_add, not_or] at hn
    obtain ⟨⟨hxc, hxf⟩, hn⟩ := hn
    obtain ⟨hnc, -, apart⟩ := Multiset.nodup_add.1 hn
    obtain ⟨hordc, hordf⟩ := ordered_cut hcut t.ordered
    obtain ⟨m₁, hunlink, hrest, hchildren, off₁⟩ := unlink_links hcut t.nodup t.links hroot
    obtain ⟨m₂, hm₂⟩ : ∃ k, k = (m₁.relink (m₁ x).child none).reset x := ⟨_, rfl⟩
    have off₂ (z : Nat) (hz : z ≠ x) (hzc : z ∉ c.nodes) : m₂ z = m₁ z := by
      rw [hm₂, reset_off hz, relink_off (links_ne hchildren hzc)]
    have detached : Links m₂ .stale (m₁ x).child c := by
      apply links_frame _ (links_stale (links_relink none hnc hchildren))
      intro z hz
      rw [hm₂, reset_off (by rintro rfl; exact hxc hz)]
    have hcard : c.nodes.card + f'.nodes.card = (S.erase x).card := by
      rw [← Multiset.card_add, hval]
      rfl
    have hle : (S.erase x).card ≤ S.card := Finset.card_erase_le
    obtain ⟨m₃, q, hrun, hmerged, hord, off₃⟩ := merged_tree hcmp' same detached hnc hxc hordc
      (by omega : c.nodes.card ≤ fuel)
    have hkept : Links m₃ (.linked none) (s.heaps h).root f' := by
      apply links_frame _ hrest
      intro z hz
      have hzc : z ∉ c.nodes := fun hc => Multiset.disjoint_left.1 apart hc hz
      rw [off₃ z hzc, off₂ z (by rintro rfl; exact hxf hz) hzc]
    have hrootf : f'.IsRoot := by
      cases hcut with
      | here => exact absurd t.links.1 hroot
      | child y => exact t.root
      | rest y hcut =>
        obtain rfl := t.root
        cases hcut
    have hn' : (f'.nodes + (mergePairs cmp' c).nodes).Nodup := by
      rw [nodes_mergePairs, add_comm]
      exact hn
    obtain ⟨hlinks, off₄⟩ := meld_links cmp' hkept hrootf hmerged (isRoot_mergePairs c) hn'
    rw [nodes_mergePairs] at off₄
    refine ⟨_, ⟨_, u32 ((s.heaps h).size + (2 ^ 32 - 1))⟩, _, ?_, ⟨?_, hlinks, ?_, ?_, ?_, ?_⟩, ?_⟩
    · have notRoot : ¬ some x = (s.heaps h).root := fun heq => hroot heq.symm
      simp only [remove, if_neg hsize, if_neg notRoot, hunlink, ok_bind, ← hm₂, hrun]
    · exact isRoot_meld hrootf (isRoot_mergePairs c)
    · rw [nodes_meld hrootf (isRoot_mergePairs c), nodes_mergePairs, add_comm, hval]
    · apply ordered_meld hcmp' _ hord
      apply ordered_congr _ hordf
      intro a ha b hb
      exact same a (by rintro rfl; exact hxf ha) b (by rintro rfl; exact hxf hb)
    · exact t.size_erase hx
    · have := t.small
      omega
    · intro z hz
      have hzf : z ∉ f.nodes := mt t.mem.1 hz
      rw [hnodes] at hzf
      simp only [Multiset.mem_add, Multiset.mem_singleton, not_or] at hzf
      obtain ⟨hzx, hzc, hzf'⟩ := hzf
      rw [off₄ z (by simp [hzc, hzf']), off₃ z hzc, off₂ z hzx hzc, off₁ z hzf']

/-- The node is removed and inserted again, both under the new order. -/
theorem update_tree (hcmp' : TotalPreorder cmp')
    (same : ∀ a, a ≠ x → ∀ b, b ≠ x → cmp' a b = cmp a b)
    (t : Tree cmp s.nodes (s.heaps h) S f) (hx : x ∈ S) (hfuel : S.card ≤ fuel) :
    ∃ m' heap' f', update cmp' fuel s (some h) (some x) =
        .ok ({ s with nodes := m' }.setHeap h heap') ∧
      Tree cmp' m' heap' S f' ∧ ∀ z, z ∉ S → m' z = s.nodes z := by
  obtain ⟨m', heap', f', hremove, htree, off⟩ := remove_tree hcmp' same t hx hfuel
  have hsmall := t.small
  have hcard : (S.erase x).card + 1 = S.card := Finset.card_erase_add_one hx
  obtain ⟨hagain, off'⟩ := insert_tree hcmp' htree (Finset.notMem_erase x _) (by omega)
  rw [Finset.insert_erase hx] at hagain off'
  refine ⟨_, _, _, ?_, hagain, fun z hz => (off' z hz).trans (off z hz)⟩
  simp only [update, hremove, ok_bind, Heap.insert, setHeap_same, setHeap_twice]
  rfl

theorem empty_tree (m : Mem) : Tree cmp m ⟨none, 0⟩ ∅ nil :=
  ⟨isRoot_nil, rfl, rfl, trivial, rfl, by decide⟩

theorem Tree.of_size_zero (t : Tree cmp m heap S f) (h : heap.size = 0) :
    S = ∅ ∧ heap = ⟨none, 0⟩ := by
  obtain rfl : S = ∅ := Finset.card_eq_zero.1 (t.size ▸ h)
  refine ⟨rfl, ?_⟩
  cases hroot : heap.root with
  | none =>
    cases heap
    simp_all
  | some x =>
    obtain ⟨c, -, hx⟩ := t.root_some hroot
    exact absurd hx (Finset.notMem_empty x)

theorem moved_tree {d : Nat} {S' : Finset Nat} {f' : Forest Nat} (hcmp : TotalPreorder cmp)
    (t : Tree cmp s.nodes (s.heaps d) S f) (t' : Tree cmp s.nodes (s.heaps h) S' f')
    (apart : Disjoint S S') (hsmall : S.card + S'.card < 2 ^ 32) :
    ∃ m' heap' g, move cmp s (some d) (some h) =
        ({ s with nodes := m' }.setHeap d heap').setHeap h ⟨none, 0⟩ ∧
      Tree cmp m' heap' (S ∪ S') g ∧ ∀ z, z ∉ S ∪ S' → m' z = s.nodes z := by
  by_cases hsrc : (s.heaps h).size = 0
  · obtain ⟨rfl, hheap⟩ := t'.of_size_zero hsrc
    refine ⟨s.nodes, s.heaps d, f, ?_, ?_, fun _ _ => rfl⟩
    · have self : (s.setHeap d (s.heaps d)).setHeap h ⟨none, 0⟩ = s := by
        rw [setHeap_self, ← hheap, setHeap_self]
      simpa only [move, if_pos hsrc] using self.symm
    · rwa [Finset.union_empty]
  · by_cases hdst : (s.heaps d).size = 0
    · obtain ⟨rfl, -⟩ := t.of_size_zero hdst
      refine ⟨s.nodes, s.heaps h, f', ?_, ?_, fun _ _ => rfl⟩
      · simp only [move, if_neg hsrc, if_pos hdst]
      · rwa [Finset.empty_union]
    · obtain ⟨htree, off⟩ := move_tree hcmp t t' apart hsmall
      refine ⟨_, _, _, ?_, htree, off⟩
      simp only [move, if_neg hsrc, if_neg hdst]

end Calls

/-! ## Runs -/

variable {K : Type}

/-- The memory, the keys that the caller's comparator reads, and the members of
each heap. -/
structure World (K : Type) where
  state : State
  keys : Nat → K
  members : Nat → Finset Nat

/-- The comparator callback on nodes. -/
def World.order (order : K → K → Int) (w : World K) (a b : Nat) : Int :=
  order (w.keys a) (w.keys b)

def World.setKey (w : World K) (x : Nat) (k : K) : World K :=
  { w with keys := fun z => if z = x then k else w.keys z }

def World.setMembers (w : World K) (h : Nat) (S : Finset Nat) : World K :=
  { w with members := fun g => if g = h then S else w.members g }

inductive Op (K : Type)
  | insert (h x : Nat) (k : K)
  | pop (h : Nat)
  | remove (h x : Nat)
  | update (h x : Nat) (k : K)
  | move (dst src : Nat)

/-- One call. The caller gives a node its key before it inserts or updates it. -/
def step (order : K → K → Int) (fuel : Nat) (w : World K) :
    Op K → Except Fault (Option Nat × World K)
  | .insert h x k =>
    let w := w.setKey x k
    let state := Heap.insert (w.order order) w.state (some h) (some x)
    .ok (none, { w with state }.setMembers h (insert x (w.members h)))
  | .pop h => do
    let (popped, state) ← pop (w.order order) fuel w.state (some h)
    .ok (popped, { w with state }.setMembers h (match popped with
      | none => w.members h
      | some x => (w.members h).erase x))
  | .remove h x => do
    let state ← remove (w.order order) fuel w.state (some h) (some x)
    .ok (none, { w with state }.setMembers h ((w.members h).erase x))
  | .update h x k => do
    let w := w.setKey x k
    let state ← update (w.order order) fuel w.state (some h) (some x)
    .ok (none, { w with state })
  | .move dst src =>
    let state := move (w.order order) w.state (some dst) (some src)
    .ok (none, ({ w with state }.setMembers dst (w.members dst ∪ w.members src)).setMembers src ∅)

/-- What the caller has to respect: only a node of no heap is inserted, only a
member is removed or updated, and a heap is moved into another one. -/
def Allowed (w : World K) : Op K → Prop
  | .insert _ x _ => ∀ g, x ∉ w.members g
  | .pop _ => True
  | .remove h x => x ∈ w.members h
  | .update h x _ => x ∈ w.members h
  | .move dst src => dst ≠ src

/-- The number of members stays within `size_`. -/
def Fits (w : World K) : Op K → Prop
  | .insert h _ _ => (w.members h).card + 1 < 2 ^ 32
  | .move dst src => (w.members dst).card + (w.members src).card < 2 ^ 32
  | .pop _ | .remove _ _ | .update _ _ _ => True

/-- Each heap is an ordered tree over its members, no node is in two heaps, and
`ct_heap_top` is a minimum. -/
structure WellFormed (order : K → K → Int) (w : World K) : Prop where
  trees : ∀ h, ∃ f, Tree (w.order order) w.state.nodes (w.state.heaps h) (w.members h) f
  apart : ∀ g h, g ≠ h → Disjoint (w.members g) (w.members h)
  empty : ∀ h, top w.state (some h) = none ↔ w.members h = ∅
  least : ∀ h x, top w.state (some h) = some x →
    x ∈ w.members h ∧ ∀ y ∈ w.members h, w.order order x y ≤ 0

/-- `ct_heap_pop` answers `ct_heap_top`, the other calls nothing. -/
def Answer (w : World K) : Op K → Option Nat → World K → Prop
  | .pop h, out, _ => out = top w.state (some h)
  | _, out, _ => out = none

variable {order : K → K → Int} {fuel : Nat} {w : World K}

theorem order_total (horder : TotalPreorder order) (w : World K) : TotalPreorder (w.order order) :=
  horder.comap w.keys

theorem wellFormed_of_trees (horder : TotalPreorder order)
    (trees : ∀ h, ∃ f, Tree (w.order order) w.state.nodes (w.state.heaps h) (w.members h) f)
    (apart : ∀ g h, g ≠ h → Disjoint (w.members g) (w.members h)) : WellFormed order w where
  trees := trees
  apart := apart
  empty h := by
    obtain ⟨f, t⟩ := trees h
    constructor
    · exact t.root_none
    · intro hempty
      cases hroot : (w.state.heaps h).root with
      | none => exact hroot
      | some x =>
        obtain ⟨c, -, hx⟩ := t.root_some hroot
        rw [hempty] at hx
        exact absurd hx (Finset.notMem_empty x)
  least h x hroot := by
    obtain ⟨f, t⟩ := trees h
    obtain ⟨c, -, hx⟩ := t.root_some hroot
    exact ⟨hx, t.root_le (order_total horder w) hroot⟩

theorem WellFormed.other (hw : WellFormed order w) {h g : Nat} {x : Nat} (hx : x ∈ w.members h)
    (hg : g ≠ h) : x ∉ w.members g :=
  Finset.disjoint_right.1 (hw.apart g h hg) hx

theorem setMembers_same (w : World K) (h : Nat) (S : Finset Nat) :
    (w.setMembers h S).members h = S := by
  simp [World.setMembers]

theorem setMembers_other (w : World K) {g h : Nat} (S : Finset Nat) (hg : g ≠ h) :
    (w.setMembers h S).members g = w.members g := by
  simp [World.setMembers, hg]

/-- The world after a call on the heap `h`. -/
def World.replace (w : World K) (h : Nat) (m : Mem) (heap : Heap) (keys : Nat → K)
    (S : Finset Nat) : World K :=
  let state := { w.state with nodes := m }.setHeap h heap
  { w with state, keys }.setMembers h S

/-- A call on one heap changes the links of its members, of `x`, and the key of `x`. -/
theorem WellFormed.replace (horder : TotalPreorder order) (hw : WellFormed order w) {h x : Nat}
    {m : Mem} {heap : Heap} {keys : Nat → K} {S : Finset Nat} {f : Forest Nat}
    (htree : Tree ({ w with keys := keys }.order order) m heap S f)
    (hkeys : ∀ z, z ≠ x → keys z = w.keys z) (hx : ∀ g, g ≠ h → x ∉ w.members g)
    (hnodes : ∀ z, z ∉ w.members h → z ≠ x → m z = w.state.nodes z)
    (hsub : ∀ z, z ∈ S → z ∈ w.members h ∨ z = x) :
    WellFormed order (w.replace h m heap keys S) := by
  have aside (g : Nat) (hg : g ≠ h) (z : Nat) (hz : z ∈ w.members g) :
      z ∉ w.members h ∧ z ≠ x := by
    constructor
    · exact Finset.disjoint_left.1 (hw.apart g h hg) hz
    · rintro rfl
      exact hx g hg hz
  have disjoint (g : Nat) (hg : g ≠ h) : Disjoint (w.members g) S := by
    rw [Finset.disjoint_left]
    intro z hz hz'
    obtain ⟨hout, hne⟩ := aside g hg z hz
    exact (hsub z hz').elim hout hne
  unfold World.replace
  apply wellFormed_of_trees horder
  · intro g
    by_cases hg : g = h
    · subst hg
      rw [setMembers_same]
      refine ⟨f, ?_⟩
      simp only [World.setMembers, setHeap_same]
      exact htree
    · obtain ⟨f', t⟩ := hw.trees g
      rw [setMembers_other _ _ hg]
      refine ⟨f', ?_⟩
      simp only [World.setMembers, setHeap_other _ _ hg]
      apply t.frame
      · exact fun z hz => hnodes z (aside g hg z hz).1 (aside g hg z hz).2
      · intro a ha b hb
        unfold World.order
        dsimp only
        rw [hkeys a (aside g hg a ha).2, hkeys b (aside g hg b hb).2]
  · intro g k hgk
    by_cases hg : g = h
    · subst hg
      rw [setMembers_same, setMembers_other _ _ hgk.symm]
      exact (disjoint k hgk.symm).symm
    · by_cases hk : k = h
      · subst hk
        rw [setMembers_same, setMembers_other _ _ hg]
        exact disjoint g hg
      · rw [setMembers_other _ _ hg, setMembers_other _ _ hk]
        exact hw.apart g k hgk

theorem setMembers_self (w : World K) (h : Nat) : w.setMembers h (w.members h) = w := by
  unfold World.setMembers
  congr 1
  funext g
  split
  · rename_i hg
    rw [hg]
  · rfl

/-- Giving `x` a key changes no comparison of other nodes. -/
theorem setKey_order (w : World K) (x : Nat) (k : K) :
    ∀ a, a ≠ x → ∀ b, b ≠ x → (w.setKey x k).order order a b = w.order order a b := by
  intro a ha b hb
  simp [World.order, World.setKey, ha, hb]

theorem setKey_off (w : World K) (x : Nat) (k : K) {z : Nat} (hz : z ≠ x) :
    (w.setKey x k).keys z = w.keys z := by
  simp [World.setKey, hz]

theorem insert_step (fuel : Nat) (horder : TotalPreorder order) (hw : WellFormed order w) {h x : Nat} {k : K}
    (hx : ∀ g, x ∉ w.members g) (hsmall : (w.members h).card + 1 < 2 ^ 32) :
    ∃ w', step order fuel w (.insert h x k) = .ok (none, w') ∧ WellFormed order w' := by
  obtain ⟨f, t⟩ := hw.trees h
  have off (a : Nat) (ha : a ∈ w.members h) : a ≠ x := by
    rintro rfl
    exact hx h ha
  have rekeyed : Tree ((w.setKey x k).order order) w.state.nodes (w.state.heaps h) (w.members h) f :=
    t.frame (fun _ _ => rfl) (fun a ha b hb => setKey_order w x k a (off a ha) b (off b hb))
  obtain ⟨htree, hnodes⟩ := insert_tree (order_total horder (w.setKey x k)) rekeyed (hx h) hsmall
  refine ⟨_, rfl, hw.replace horder (x := x) htree (fun z => setKey_off w x k) (fun g _ => hx g) ?_ ?_⟩
  · intro z hz hzx
    exact hnodes z (by simp [hz, hzx])
  · intro z hz
    exact (Finset.mem_insert.1 hz).symm

theorem pop_step (horder : TotalPreorder order) (hw : WellFormed order w)
    (hfuel : 2 ^ 32 ≤ fuel) (h : Nat) :
    ∃ w', step order fuel w (.pop h) = .ok (top w.state (some h), w') ∧ WellFormed order w' := by
  obtain ⟨f, t⟩ := hw.trees h
  have htop : top w.state (some h) = (w.state.heaps h).root := rfl
  cases hroot : (w.state.heaps h).root with
  | none =>
    refine ⟨w, ?_, hw⟩
    rw [htop, hroot]
    simp only [step, pop, hroot, ok_bind, setMembers_self]
  | some x =>
    obtain ⟨c, -, hx⟩ := t.root_some hroot
    have := t.small
    obtain ⟨m', heap', f', hpop, htree, off⟩ :=
      pop_tree (order_total horder w) (fun _ _ _ _ => rfl) t hroot (by omega : _ ≤ fuel)
    refine ⟨w.replace h m' heap' w.keys ((w.members h).erase x), ?_, ?_⟩
    · rw [htop, hroot]
      simp only [step, hpop, ok_bind]
      rfl
    · apply hw.replace horder (x := x) htree (fun _ _ => rfl) (fun g hg => hw.other hx hg)
      · exact fun z hz _ => off z hz
      · exact fun z hz => Or.inl (Finset.mem_of_mem_erase hz)

theorem remove_step (horder : TotalPreorder order) (hw : WellFormed order w)
    (hfuel : 2 ^ 32 ≤ fuel) {h x : Nat} (hx : x ∈ w.members h) :
    ∃ w', step order fuel w (.remove h x) = .ok (none, w') ∧ WellFormed order w' := by
  obtain ⟨f, t⟩ := hw.trees h
  have := t.small
  obtain ⟨m', heap', f', hremove, htree, off⟩ :=
    remove_tree (order_total horder w) (fun _ _ _ _ => rfl) t hx (by omega : _ ≤ fuel)
  refine ⟨w.replace h m' heap' w.keys ((w.members h).erase x), ?_, ?_⟩
  · simp only [step, hremove, ok_bind]
    rfl
  · apply hw.replace horder (x := x) htree (fun _ _ => rfl) (fun g hg => hw.other hx hg)
    · exact fun z hz _ => off z hz
    · exact fun z hz => Or.inl (Finset.mem_of_mem_erase hz)

theorem update_step (horder : TotalPreorder order) (hw : WellFormed order w)
    (hfuel : 2 ^ 32 ≤ fuel) {h x : Nat} {k : K} (hx : x ∈ w.members h) :
    ∃ w', step order fuel w (.update h x k) = .ok (none, w') ∧ WellFormed order w' := by
  obtain ⟨f, t⟩ := hw.trees h
  have hsmall := t.small
  obtain ⟨m', heap', f', hupdate, htree, off⟩ :=
    update_tree (order_total horder (w.setKey x k)) (setKey_order w x k) t hx (by omega : _ ≤ fuel)
  refine ⟨w.replace h m' heap' (w.setKey x k).keys (w.members h), ?_, ?_⟩
  · have kept := setMembers_self { (w.setKey x k) with
      state := { w.state with nodes := m' }.setHeap h heap' } h
    simp only [step, show (w.setKey x k).state = w.state from rfl, hupdate, ok_bind]
    rw [← kept]
    rfl
  · apply hw.replace horder (x := x) htree (fun z => setKey_off w x k) (fun g hg => hw.other hx hg)
    · exact fun z hz _ => off z hz
    · exact fun z hz => Or.inl hz

theorem move_step (fuel : Nat) (horder : TotalPreorder order) (hw : WellFormed order w) {dst src : Nat}
    (hne : dst ≠ src) (hsmall : (w.members dst).card + (w.members src).card < 2 ^ 32) :
    ∃ w', step order fuel w (.move dst src) = .ok (none, w') ∧ WellFormed order w' := by
  obtain ⟨f, t⟩ := hw.trees dst
  obtain ⟨f', t'⟩ := hw.trees src
  obtain ⟨m', heap', g, hmove, htree, off⟩ :=
    moved_tree (order_total horder w) t t' (hw.apart dst src hne) hsmall
  refine ⟨_, rfl, ?_⟩
  rw [hmove]
  have aside (k : Nat) (hd : k ≠ dst) (hs : k ≠ src) :
      Disjoint (w.members k) (w.members dst ∪ w.members src) :=
    Finset.disjoint_union_right.2 ⟨hw.apart k dst hd, hw.apart k src hs⟩
  have members (k : Nat) (v : State) :
      (({ w with state := v }.setMembers dst (w.members dst ∪ w.members src)).setMembers src
        ∅).members k =
      if k = src then ∅ else if k = dst then w.members dst ∪ w.members src else w.members k := rfl
  apply wellFormed_of_trees horder
  · intro k
    rw [members]
    by_cases hs : k = src
    · subst hs
      rw [if_pos rfl]
      refine ⟨nil, ?_⟩
      simp only [World.setMembers, setHeap_same]
      exact empty_tree _
    · rw [if_neg hs]
      simp only [World.setMembers, setHeap_other _ _ hs]
      by_cases hd : k = dst
      · subst hd
        rw [if_pos rfl, setHeap_same]
        exact ⟨g, htree⟩
      · rw [if_neg hd, setHeap_other _ _ hd]
        obtain ⟨f'', t''⟩ := hw.trees k
        refine ⟨f'', t''.frame (fun z hz => ?_) (fun _ _ _ _ => rfl)⟩
        exact off z (Finset.disjoint_left.1 (aside k hd hs) hz)
  · intro j k hjk
    rw [members, members]
    by_cases hjs : j = src
    · simp [hjs]
    · by_cases hks : k = src
      · simp [hks]
      · rw [if_neg hjs, if_neg hks]
        by_cases hjd : j = dst
        · have hkd : k ≠ dst := fun h => hjk (hjd.trans h.symm)
          rw [if_pos hjd, if_neg hkd]
          exact (aside k hkd hks).symm
        · rw [if_neg hjd]
          by_cases hkd : k = dst
          · rw [if_pos hkd]
            exact aside j hjd hjs
          · rw [if_neg hkd]
            exact hw.apart j k hjk

/-- **Pairing heaps keep their shape and order.** From well-formed heaps, every
run of calls on fewer than `2 ^ 32` nodes a heap returns from each call, leaves
every heap an ordered, correctly linked tree over exactly its members, and pops
a least member. -/
theorem heap_runs (horder : TotalPreorder order) (hfuel : 2 ^ 32 ≤ fuel) (hw : WellFormed order w)
    (ops : List (Op K)) (hops : Meets (step order fuel) (fun w op => Allowed w op ∧ Fits w op) w ops) :
    Along (step order fuel) (WellFormed order) Answer w ops := by
  apply along_of_meets (fun _ h => h) _ hw hops
  rintro w op hw ⟨allowed, fits⟩
  cases op with
  | insert h x k =>
    obtain ⟨w', hstep, hw'⟩ := insert_step fuel horder hw allowed fits
    exact ⟨none, w', hstep, rfl, hw'⟩
  | pop h =>
    obtain ⟨w', hstep, hw'⟩ := pop_step horder hw hfuel h
    exact ⟨_, w', hstep, rfl, hw'⟩
  | remove h x =>
    obtain ⟨w', hstep, hw'⟩ := remove_step horder hw hfuel allowed
    exact ⟨none, w', hstep, rfl, hw'⟩
  | update h x k =>
    obtain ⟨w', hstep, hw'⟩ := update_step (k := k) horder hw hfuel allowed
    exact ⟨none, w', hstep, rfl, hw'⟩
  | move dst src =>
    obtain ⟨w', hstep, hw'⟩ := move_step fuel horder hw allowed fits
    exact ⟨none, w', hstep, rfl, hw'⟩

/-- All heaps have been initialised. -/
def start (m : Mem) (keys : Nat → K) : World K where
  state := ⟨m, fun _ => ⟨none, 0⟩⟩
  keys := keys
  members _ := ∅

theorem start_wellFormed (horder : TotalPreorder order) (m : Mem) (keys : Nat → K) :
    WellFormed order (start m keys) :=
  wellFormed_of_trees horder (fun _ => ⟨nil, empty_tree m⟩) (fun _ _ _ => Finset.disjoint_empty_left _)

def byKey (a b : Int) : Int := a - b

theorem byKey_total : TotalPreorder byKey := .ofKey id

/-- Two nodes in two heaps, moved together, then one is updated. -/
theorem heap_runs_two :
    Along (step byKey (2 ^ 32)) (WellFormed byKey) Answer
      (start (fun _ => ⟨none, none, none⟩) (fun _ => 0))
      [.insert 0 7 3, .insert 1 8 1, .move 0 1, .update 0 7 0] := by
  apply heap_runs byKey_total (Nat.le_refl _) (start_wellFormed byKey_total _ _)
  apply meets_cons rfl ⟨by simp [Allowed, start], by simp [Fits, start]⟩
  apply meets_cons rfl
  · constructor
    · intro g
      by_cases hg : g = 0 <;> simp [World.setMembers, World.setKey, start, hg]
    · simp [Fits, World.setMembers, World.setKey, start]
  apply meets_cons rfl
  · exact ⟨by simp [Allowed], by simp [Fits, World.setMembers, World.setKey, start]⟩
  · exact ⟨⟨by simp [Allowed, World.setMembers, World.setKey, start], trivial⟩, fun _ _ _ => trivial⟩

/-- The nodes `k`, `k + 1`, ... inserted into one heap. -/
def inserts : Nat → Nat → List (Op Int)
  | _, 0 => []
  | k, n + 1 => .insert 0 k 0 :: inserts (k + 1) n

theorem inserts_run (order : Int → Int → Int) (fuel k n : Nat) {w : World Int}
    (hmembers : ∀ g, w.members g = if g = 0 then Finset.range k else ∅)
    (hsize : (w.state.heaps 0).size = u32 k) :
    Meets (step order fuel) Allowed w (inserts k n) ∧
      ∃ os w', exec (step order fuel) w (inserts k n) = .ok (os, w') ∧
        (w'.members 0).card = k + n ∧ (w'.state.heaps 0).size = u32 (k + n) := by
  induction n generalizing k w with
  | zero =>
    refine ⟨trivial, [], w, rfl, ?_, hsize⟩
    rw [hmembers]
    simp
  | succ n ih =>
    have hstep : ∃ w₁, step order fuel w (.insert 0 k 0) = .ok (none, w₁) ∧
        (∀ g, w₁.members g = if g = 0 then Finset.range (k + 1) else ∅) ∧
        (w₁.state.heaps 0).size = u32 (k + 1) := by
      refine ⟨_, rfl, fun g => ?_, ?_⟩
      · by_cases hg : g = 0
        · subst hg
          rw [setMembers_same, show (w.setKey k 0).members 0 = w.members 0 from rfl, hmembers,
            if_pos rfl, if_pos rfl, Finset.range_add_one]
        · rw [setMembers_other _ _ hg, if_neg hg]
          exact (hmembers g).trans (if_neg hg)
      · have grown : u32 ((w.state.heaps 0).size + 1) = u32 (k + 1) := by
          rw [hsize]
          exact Nat.mod_add_mod k (2 ^ 32) 1
        exact grown
    obtain ⟨w₁, hok, hmembers₁, hsize₁⟩ := hstep
    obtain ⟨hmeets, os, w', hexec, hcard, hsize'⟩ := ih (k + 1) hmembers₁ hsize₁
    constructor
    · apply meets_cons hok _ hmeets
      intro g
      rw [hmembers g]
      split <;> simp
    · refine ⟨none :: os, w', exec_cons hok hexec, ?_, ?_⟩
      · rw [hcard]
        omega
      · rw [hsize', show k + 1 + n = k + (n + 1) by omega]

/-- `size_` has 32 bits: after `2 ^ 32` inserts it says that the heap is empty. -/
theorem size_wraps :
    ∃ os w, exec (step byKey 0) (start (fun _ => ⟨none, none, none⟩) (fun _ => 0))
        (inserts 0 (2 ^ 32)) = .ok (os, w) ∧
      Meets (step byKey 0) Allowed
        (start (fun _ => ⟨none, none, none⟩) (fun _ => 0)) (inserts 0 (2 ^ 32)) ∧
      (w.members 0).card = 2 ^ 32 ∧ (w.state.heaps 0).size = 0 := by
  obtain ⟨hmeets, os, w, hexec, hcard, hsize⟩ :=
    inserts_run byKey 0 0 (2 ^ 32)
      (w := start (fun _ => ⟨none, none, none⟩) (fun _ => 0)) (by simp [start]) rfl
  refine ⟨os, w, hexec, hmeets, hcard.trans (Nat.zero_add _), ?_⟩
  rw [hsize]
  decide

end Coter.Heap
