import Coter.Container.Heap
import Coter.Lib.PairingHeap

/-!
# The links of the pairing heap

`Links`: nodes in memory are linked as a forest. Each function on the memory does
to the linked forest what the function on forests does:

* `meld_links`, `mergePairsIter_links`: melding and merging;
* `unlink_links`: the node that `ct_heap_remove` takes out is cut.
-/

namespace Coter.Heap

open Lib.PairingHeap Lib.PairingHeap.Forest

/-- What `left_` of the first node of a list of siblings is known to hold.
While trees are merged it is cleared, or left over from an earlier list. -/
inductive Back
  | linked (l : Option Nat)
  | cleared
  | stale

def Back.Ok : Back → Option Nat → Prop
  | linked l, p => p = l
  | cleared, p => p = none
  | stale, _ => True

/-- The same for the sibling after `x`. -/
def Back.next (x : Nat) : Back → Back
  | linked _ => linked (some x)
  | cleared => cleared
  | stale => stale

/-- The pointer `p` leads to the forest: `child_` to the children, `right_` to the
next sibling, and `left_` back to the previous sibling or the parent. -/
def Links (m : Mem) : Back → Option Nat → Forest Nat → Prop
  | _, p, nil => p = none
  | b, p, cons x c r =>
    p = some x ∧ b.Ok (m x).left ∧ Links m (.linked (some x)) (m x).child c ∧
      Links m (b.next x) (m x).right r

variable {m m' : Mem} {b : Back} {p q : Option Nat} {f g : Forest Nat} {x y : Nat}

/-- Only the nodes of the forest matter. -/
theorem links_frame (h : ∀ z ∈ f.nodes, m' z = m z) (hf : Links m b p f) : Links m' b p f := by
  induction f generalizing b p with
  | nil => exact hf
  | cons x c r ihc ihr =>
    obtain ⟨hp, hleft, hc, hr⟩ := hf
    have root : m' x = m x := h x (by simp [nodes])
    unfold Links
    rw [root]
    exact ⟨hp, hleft, ihc (fun z hz => h z (by simp [nodes, hz])) hc,
      ihr (fun z hz => h z (by simp [nodes, hz])) hr⟩

theorem links_stale (hf : Links m b p f) : Links m .stale p f := by
  induction f generalizing b p with
  | nil => exact hf
  | cons x c r _ ihr =>
    obtain ⟨hp, -, hc, hr⟩ := hf
    exact ⟨hp, trivial, hc, ihr hr⟩

/-! ## Reading the memory back -/

theorem setChild_off {z : Nat} (h : z ≠ x) : m.setChild x p z = m z := by
  simp [Mem.setChild, h]

theorem setLeft_off {z : Nat} (h : z ≠ x) : m.setLeft x p z = m z := by
  simp [Mem.setLeft, h]

theorem setRight_off {z : Nat} (h : z ≠ x) : m.setRight x p z = m z := by
  simp [Mem.setRight, h]

theorem reset_off {z : Nat} (h : z ≠ x) : m.reset x z = m z := by
  simp [Mem.reset, setChild_off h, setLeft_off h, setRight_off h]

theorem relink_off {l : Option Nat} {z : Nat} (h : p ≠ some z) : m.relink p l z = m z := by
  cases p with
  | none => rfl
  | some w =>
    apply setLeft_off
    rintro rfl
    exact h rfl

theorem relink_child {l : Option Nat} (z : Nat) : (m.relink p l z).child = (m z).child := by
  cases p with
  | none => rfl
  | some w =>
    unfold Mem.relink Mem.setLeft
    dsimp only
    split <;> rfl

theorem relink_right {l : Option Nat} (z : Nat) : (m.relink p l z).right = (m z).right := by
  cases p with
  | none => rfl
  | some w =>
    unfold Mem.relink Mem.setLeft
    dsimp only
    split <;> rfl

theorem setRight_child (z : Nat) : (m.setRight x p z).child = (m z).child := by
  unfold Mem.setRight
  dsimp only
  split <;> rfl

/-- A linked pointer does not lead outside its forest. -/
theorem links_ne (hf : Links m b p f) (hx : x ∉ f.nodes) : p ≠ some x := by
  cases f with
  | nil =>
    obtain rfl : p = none := hf
    nofun
  | cons y c r =>
    rw [hf.1]
    rintro h
    obtain rfl := Option.some.inj h
    exact hx (by simp [nodes])

theorem nodup_child {c r : Forest Nat} (hn : (cons x c r).nodes.Nodup) :
    c.nodes.Nodup ∧ r.nodes.Nodup ∧ x ∉ c.nodes ∧ x ∉ r.nodes ∧
      ∀ z ∈ c.nodes, z ∉ r.nodes := by
  simp only [nodes, Multiset.nodup_cons, Multiset.mem_add, not_or, Multiset.nodup_add,
    Multiset.disjoint_left] at hn
  obtain ⟨⟨hxc, hxr⟩, hc, hr, apart⟩ := hn
  exact ⟨hc, hr, hxc, hxr, fun z hz => apart hz⟩

theorem links_relink {l : Option Nat} (l' : Option Nat) (hn : f.nodes.Nodup) (hf : Links m (.linked l) p f) :
    Links (m.relink p l') (.linked l') p f := by
  cases f with
  | nil => exact hf
  | cons x c r =>
    obtain ⟨rfl, -, hc, hr⟩ := hf
    obtain ⟨-, -, hxc, hxr, -⟩ := nodup_child hn
    have off (z : Nat) (h : z ≠ x) : m.relink (some x) l' z = m z := setLeft_off h
    refine ⟨rfl, by simp [Back.Ok, Mem.relink, Mem.setLeft], ?_, ?_⟩
    · rw [relink_child]
      exact links_frame (fun z hz => off z (by rintro rfl; exact hxc hz)) hc
    · rw [relink_right]
      exact links_frame (fun z hz => off z (by rintro rfl; exact hxr hz)) hr

/-! ## Melding -/

/-- What `heap_meld` writes when `y` becomes the first child of `x`. -/
def adopt (m : Mem) (x y : Nat) : Mem :=
  (((m.setRight y (m x).child).relink (m x).child (some y)).setChild x (some y)).setLeft y (some x)

theorem meld_some (cmp : Nat → Nat → Int) (m : Mem) (x y : Nat) :
    meld cmp m (some x) (some y) =
      if cmp x y < 0 then (adopt m x y, some x) else (adopt m y x, some y) := by
  dsimp only [meld]
  rw [setRight_child, setRight_child]
  rfl

theorem adopt_off {z : Nat} (hx : z ≠ x) (hy : z ≠ y) :
    adopt m x y z = m.relink (m x).child (some y) z := by
  unfold adopt
  rw [setLeft_off hy, setChild_off hx]
  cases (m x).child with
  | none => exact setRight_off hy
  | some w => simp [Mem.relink, Mem.setLeft, setRight_off hy]

theorem adopt_winner (hne : x ≠ y) (hchild : (m x).child ≠ some x) :
    adopt m x y x = ⟨some y, (m x).left, (m x).right⟩ := by
  unfold adopt
  rw [setLeft_off hne]
  unfold Mem.setChild
  rw [if_pos rfl, relink_off hchild, setRight_off hne]

theorem adopt_loser (hne : x ≠ y) (hchild : (m x).child ≠ some y) :
    adopt m x y y = ⟨(m y).child, some x, (m x).child⟩ := by
  unfold adopt
  unfold Mem.setLeft
  rw [if_pos rfl, setChild_off hne.symm, relink_off hchild]
  simp [Mem.setRight]

theorem adopt_links {c d : Forest Nat} (hn : ((cons x c nil).nodes + (cons y d nil).nodes).Nodup)
    (hx : Links m (.linked none) (some x) (cons x c nil))
    (hy : Links m (.linked none) (some y) (cons y d nil)) :
    Links (adopt m x y) (.linked none) (some x) (cons x (cons y d c) nil) ∧
      ∀ z, z ∉ (cons x c nil).nodes + (cons y d nil).nodes → adopt m x y z = m z := by
  obtain ⟨-, hxleft, hc, hxright⟩ := hx
  obtain ⟨-, -, hd, -⟩ := hy
  obtain ⟨hnx, hny, apart⟩ := Multiset.nodup_add.1 hn
  obtain ⟨hnc, -, hxc, -, -⟩ := nodup_child hnx
  obtain ⟨hnd, -, hyd, -, -⟩ := nodup_child hny
  have apart' (z : Nat) (hz : z ∈ (cons x c nil).nodes) : z ∉ (cons y d nil).nodes :=
    Multiset.disjoint_left.1 apart hz
  have hxy : x ≠ y ∧ x ∉ d.nodes := by
    simpa [nodes] using apart' x (by simp [nodes])
  have hcy (z : Nat) (hz : z ∈ c.nodes) : z ≠ y ∧ z ∉ d.nodes := by
    simpa [nodes] using apart' z (by simp [nodes, hz])
  have hyc : y ∉ c.nodes := fun h => (hcy y h).1 rfl
  have winner := adopt_winner (m := m) hxy.1 (links_ne hc hxc)
  have loser := adopt_loser (m := m) hxy.1 (links_ne hc hyc)
  constructor
  · unfold Links
    rw [winner]
    refine ⟨rfl, hxleft, ?_, hxright⟩
    unfold Links
    rw [loser]
    refine ⟨rfl, rfl, ?_, ?_⟩
    · apply links_frame _ hd
      intro z hz
      rw [adopt_off (by rintro rfl; exact hxy.2 hz) (by rintro rfl; exact hyd hz)]
      exact relink_off (links_ne hc (fun h => (hcy z h).2 hz))
    · apply links_frame _ (links_relink (some y) hnc hc)
      intro z hz
      exact adopt_off (by rintro rfl; exact hxc hz) (hcy z hz).1
  · intro z hz
    simp only [nodes, add_zero, Multiset.mem_add, Multiset.mem_cons, not_or] at hz
    obtain ⟨⟨hzx, hzc⟩, hzy, -⟩ := hz
    rw [adopt_off hzx hzy]
    exact relink_off (links_ne hc hzc)

/-- `heap_meld` melds. -/
theorem meld_links (cmp : Nat → Nat → Int) (hf : Links m (.linked none) p f) (hfr : f.IsRoot)
    (hg : Links m (.linked none) q g) (hgr : g.IsRoot) (hn : (f.nodes + g.nodes).Nodup) :
    Links (meld cmp m p q).1 (.linked none) (meld cmp m p q).2 (Lib.PairingHeap.meld cmp f g) ∧
      ∀ z, z ∉ f.nodes + g.nodes → (meld cmp m p q).1 z = m z := by
  cases f with
  | nil =>
    obtain rfl : p = none := hf
    exact ⟨hg, fun _ _ => rfl⟩
  | cons x c r =>
    obtain rfl : r = nil := hfr
    obtain rfl : p = some x := hf.1
    cases g with
    | nil =>
      obtain rfl : q = none := hg
      exact ⟨hf, fun _ _ => rfl⟩
    | cons y d t =>
      obtain rfl : t = nil := hgr
      obtain rfl : q = some y := hg.1
      rw [meld_some]
      dsimp only [Lib.PairingHeap.meld, pair]
      split
      · exact adopt_links hn hf hg
      · rw [add_comm] at hn ⊢
        exact adopt_links hn hg hf

/-! ## Merging the children -/

/-- A tree in front of a list of cleared siblings. -/
theorem links_chain {w : Nat} {e : Forest Nat} (hn : ((cons w e nil).nodes + g.nodes).Nodup)
    (htree : Links m (.linked none) (some w) (cons w e nil)) (hg : Links m .cleared q g) :
    Links (m.setRight w q) .cleared (some w) (cons w e g) := by
  obtain ⟨-, hleft, he, -⟩ := htree
  obtain ⟨hne, -, apart⟩ := Multiset.nodup_add.1 hn
  obtain ⟨-, -, hwe, -, -⟩ := nodup_child hne
  have hwg : w ∉ g.nodes := Multiset.disjoint_left.1 apart (by simp [nodes])
  have off (z : Nat) (hz : z ≠ w) : m.setRight w q z = m z := setRight_off hz
  have changed : m.setRight w q w = { m w with right := q } := by simp [Mem.setRight]
  unfold Links
  rw [changed]
  refine ⟨rfl, hleft, ?_, ?_⟩
  · exact links_frame (fun z hz => off z (by rintro rfl; exact hwe hz)) he
  · exact links_frame (fun z hz => off z (by rintro rfl; exact hwg hz)) hg

theorem pair_cases (cmp : Nat → Nat → Int) (x : Nat) (c : Forest Nat) (y : Nat) (d : Forest Nat) :
    ∃ w e, ∀ rest, pair cmp x c y d rest = cons w e rest := by
  unfold pair
  split
  · exact ⟨x, cons y d c, fun _ => rfl⟩
  · exact ⟨y, cons x c d, fun _ => rfl⟩

/-- A node whose sibling links have been cleared is the root of a tree. -/
theorem links_single {c : Forest Nat} (hc : Links m (.linked (some x)) (m x).child c)
    (hchild : (m' x).child = (m x).child) (hleft : (m' x).left = none)
    (hright : (m' x).right = none) (off : ∀ z, z ∈ c.nodes → m' z = m z) :
    Links m' (.linked none) (some x) (cons x c nil) := by
  unfold Links
  rw [hchild]
  exact ⟨rfl, hleft, links_frame off hc, hright⟩

/-- `a->left_ = a->right_ = b->left_ = b->right_ = NULL` -/
def clearPair (m : Mem) (x y : Nat) : Mem :=
  (((m.setRight y none).setLeft y none).setRight x none).setLeft x none

theorem clearPair_off {z : Nat} (hx : z ≠ x) (hy : z ≠ y) : clearPair m x y z = m z := by
  unfold clearPair
  rw [setLeft_off hx, setRight_off hx, setLeft_off hy, setRight_off hy]

theorem nodes_nil : (nil : Forest Nat).nodes = 0 := rfl

/-- One turn of the first loop on two adjacent trees. -/
theorem firstPass_turn (cmp : Nat → Nat → Int) {c d rest : Forest Nat}
    (hn : ((cons x c (cons y d rest)).nodes + g.nodes).Nodup)
    (hc : Links m (.linked (some x)) (m x).child c)
    (hd : Links m (.linked (some y)) (m y).child d) (hg : Links m .cleared q g) :
    ∃ m₂ w, meld cmp (clearPair m x y) (some x) (some y) = (m₂, some w) ∧
      Links (m₂.setRight w q) .cleared (some w) (pair cmp x c y d g) ∧
      ∀ z, z ∉ (cons x c nil).nodes + (cons y d nil).nodes → m₂.setRight w q z = m z := by
  have parts : (cons x c (cons y d rest)).nodes + g.nodes =
      rest.nodes + ((cons x c nil).nodes + (cons y d nil).nodes + g.nodes) := by
    simp only [nodes_cons, nodes_nil]
    abel
  rw [parts] at hn
  have hnAcc := (Multiset.nodup_add.1 hn).2.1
  obtain ⟨hnPair, -, apart⟩ := Multiset.nodup_add.1 hnAcc
  obtain ⟨hnx, hny, apartPair⟩ := Multiset.nodup_add.1 hnPair
  obtain ⟨-, -, hxc, -, -⟩ := nodup_child hnx
  obtain ⟨-, -, hyd, -, -⟩ := nodup_child hny
  have hx : x ≠ y ∧ x ∉ d.nodes := by
    simpa [nodes] using Multiset.disjoint_left.1 apartPair (show x ∈ _ by simp [nodes])
  have hy : y ∉ c.nodes := by
    intro h
    have := Multiset.disjoint_left.1 apartPair (show y ∈ (cons x c nil).nodes by simp [nodes, h])
    simp [nodes] at this
  have first : Links (clearPair m x y) (.linked none) (some x) (cons x c nil) := by
    apply links_single hc
    · simp [clearPair, Mem.setLeft, Mem.setRight, hx.1]
    · simp [clearPair, Mem.setLeft]
    · simp [clearPair, Mem.setLeft, Mem.setRight]
    · exact fun z hz => clearPair_off (by rintro rfl; exact hxc hz) (by rintro rfl; exact hy hz)
  have second : Links (clearPair m x y) (.linked none) (some y) (cons y d nil) := by
    apply links_single hd
    · simp [clearPair, Mem.setLeft, Mem.setRight, hx.1.symm]
    · simp [clearPair, Mem.setLeft, Mem.setRight, hx.1.symm]
    · simp [clearPair, Mem.setLeft, Mem.setRight, hx.1.symm]
    · exact fun z hz => clearPair_off (by rintro rfl; exact hx.2 hz) (by rintro rfl; exact hyd hz)
  obtain ⟨hpaired, offMeld⟩ := meld_links cmp first rfl second rfl hnPair
  obtain ⟨w, e, hpair⟩ := pair_cases cmp x c y d
  have inPair : (cons w e nil).nodes = (cons x c nil).nodes + (cons y d nil).nodes := by
    rw [← hpair nil, nodes_pair]
    simp only [nodes_cons, nodes_nil]
    abel
  dsimp only [Lib.PairingHeap.meld] at hpaired
  rw [hpair] at hpaired
  generalize meld cmp (clearPair m x y) (some x) (some y) = r at *
  obtain ⟨m₂, pp⟩ := r
  obtain rfl : pp = some w := hpaired.1
  have off (z : Nat) (hz : z ∉ (cons x c nil).nodes + (cons y d nil).nodes) : m₂ z = m z := by
    have hzx : z ≠ x := by
      rintro rfl
      exact hz (by simp [nodes])
    have hzy : z ≠ y := by
      rintro rfl
      exact hz (by simp [nodes])
    exact (offMeld z hz).trans (clearPair_off hzx hzy)
  refine ⟨m₂, w, rfl, ?_, fun z hz => ?_⟩
  · rw [hpair]
    rw [← inPair] at hnAcc
    exact links_chain hnAcc hpaired
      (links_frame (fun z hz => off z fun h => Multiset.disjoint_left.1 apart h hz) hg)
  · have hzw : z ≠ w := by
      rintro rfl
      exact hz (inPair ▸ by simp [nodes])
    rw [setRight_off hzw, off z hz]

theorem firstPass_links (cmp : Nat → Nat → Int) {fuel : Nat} (hn : (f.nodes + g.nodes).Nodup)
    (hf : Links m .stale p f) (hg : Links m .cleared q g) (hfuel : f.nodes.card ≤ fuel) :
    ∃ m' p', firstPass cmp fuel m p q = .ok (m', p') ∧
      Links m' .cleared p' (pairUp cmp f g) ∧ ∀ z, z ∉ f.nodes + g.nodes → m' z = m z := by
  fun_induction pairUp cmp f g generalizing fuel m p q with
  | case1 g =>
    obtain rfl : p = none := hf
    exact ⟨m, q, by simp [firstPass], hg, fun _ _ => rfl⟩
  | case2 x c g =>
    obtain ⟨rfl, -, hc, hr⟩ := hf
    obtain ⟨fuel, rfl⟩ : ∃ k, fuel = k + 1 := ⟨fuel - 1, by simp [nodes] at hfuel; omega⟩
    have hright : (m x).right = none := hr
    obtain ⟨hnf, -, apart⟩ := Multiset.nodup_add.1 hn
    obtain ⟨-, -, hxc, -, -⟩ := nodup_child hnf
    have hxg : x ∉ g.nodes := Multiset.disjoint_left.1 apart (by simp [nodes])
    have off (z : Nat) (hz : z ≠ x) : (m.setRight x none).setLeft x none z = m z := by
      rw [setLeft_off hz, setRight_off hz]
    have tree : Links ((m.setRight x none).setLeft x none) (.linked none) (some x)
        (cons x c nil) := by
      apply links_single hc
      · simp [Mem.setLeft, Mem.setRight]
      · simp [Mem.setLeft]
      · simp [Mem.setLeft, Mem.setRight]
      · exact fun z hz => off z (by rintro rfl; exact hxc hz)
    refine ⟨((m.setRight x none).setLeft x none).setRight x q, some x, ?_, ?_, ?_⟩
    · simp [firstPass, hright]
    · apply links_chain hn tree
      exact links_frame (fun z hz => off z (by rintro rfl; exact hxg hz)) hg
    · intro z hz
      have hzx : z ≠ x := by
        rintro rfl
        exact hz (by simp [nodes])
      rw [setRight_off hzx, off z hzx]
  | case3 x c y d rest g ih =>
    obtain ⟨rfl, -, hc, hy, -, hd, hrest⟩ := hf
    obtain ⟨fuel, rfl⟩ : ∃ k, fuel = k + 1 := ⟨fuel - 1, by simp [nodes] at hfuel; omega⟩
    obtain ⟨m₂, w, hmeld, hchain, off⟩ := firstPass_turn cmp hn hc hd hg
    have parts : (cons x c (cons y d rest)).nodes + g.nodes =
        rest.nodes + (pair cmp x c y d g).nodes := by
      simp only [nodes_pair, nodes_cons]
      abel
    rw [parts] at hn ⊢
    have aside (z : Nat) (h : z ∉ (pair cmp x c y d g).nodes) :
        z ∉ (cons x c nil).nodes + (cons y d nil).nodes := by
      simp only [nodes_pair, Multiset.mem_add, not_or] at h
      simp only [nodes_cons, nodes_nil, add_zero, Multiset.mem_add, not_or]
      exact h.1
    have remaining : Links (m₂.setRight w q) .stale (m y).right rest := by
      apply links_frame _ hrest
      intro z hz
      have apart := (Multiset.nodup_add.1 hn).2.2
      exact off z (aside z (Multiset.disjoint_left.1 apart hz))
    have hcard : rest.nodes.card ≤ fuel := by
      simp only [nodes, Multiset.card_cons, Multiset.card_add] at hfuel
      omega
    obtain ⟨m', p', hrun, hlinks, hoff⟩ := ih hn remaining hchain hcard
    refine ⟨m', p', ?_, hlinks, fun z hz => ?_⟩
    · have hright : (m x).right = some y := hy
      rw [← hrun]
      unfold clearPair at hmeld
      simp only [firstPass, hright, hmeld]
    · rw [hoff z hz]
      exact off z (aside z (fun h => hz (by simp [h])))

theorem secondPass_links (cmp : Nat → Nat → Int) {fuel : Nat} (hfr : f.IsRoot)
    (hn : (f.nodes + g.nodes).Nodup) (hf : Links m (.linked none) p f)
    (hg : Links m .cleared q g) (hfuel : g.nodes.card ≤ fuel) :
    ∃ m' p', secondPass cmp fuel m p q = .ok (m', p') ∧
      Links m' (.linked none) p' (foldUp cmp f g) ∧ ∀ z, z ∉ f.nodes + g.nodes → m' z = m z := by
  fun_induction foldUp cmp f g generalizing fuel m p q with
  | case1 root =>
    obtain rfl : q = none := hg
    exact ⟨m, p, by simp [secondPass], hf, fun _ _ => rfl⟩
  | case2 root x c rest ih =>
    obtain ⟨rfl, hleft, hc, hr⟩ := hg
    obtain ⟨fuel, rfl⟩ : ∃ k, fuel = k + 1 := ⟨fuel - 1, by simp [nodes] at hfuel; omega⟩
    have single : (cons x c nil : Forest Nat).IsRoot := rfl
    have parts : root.nodes + (cons x c rest).nodes =
        (root.nodes + (cons x c nil).nodes) + rest.nodes := by
      simp only [nodes_cons, nodes_nil]
      abel
    rw [parts] at hn ⊢
    obtain ⟨hnBoth, -, apart⟩ := Multiset.nodup_add.1 hn
    obtain ⟨-, hnx, apartRoot⟩ := Multiset.nodup_add.1 hnBoth
    obtain ⟨-, -, hxc, -, -⟩ := nodup_child hnx
    have hroot : Links (m.setRight x none) (.linked none) p root := by
      apply links_frame _ hf
      intro z hz
      apply setRight_off
      rintro rfl
      exact Multiset.disjoint_left.1 apartRoot hz (by simp [nodes])
    have tree : Links (m.setRight x none) (.linked none) (some x) (cons x c nil) := by
      apply links_single hc
      · simp [Mem.setRight]
      · have cleared : (m x).left = none := hleft
        simpa [Mem.setRight] using cleared
      · simp [Mem.setRight]
      · exact fun z hz => setRight_off (by rintro rfl; exact hxc hz)
    obtain ⟨hmeld, offMeld⟩ := meld_links cmp hroot hfr tree single hnBoth
    have off (z : Nat) (hz : z ∉ root.nodes + (cons x c nil).nodes) :
        (meld cmp (m.setRight x none) p (some x)).1 z = m z := by
      rw [offMeld z hz]
      apply setRight_off
      rintro rfl
      exact hz (by simp [nodes])
    have remaining : Links (meld cmp (m.setRight x none) p (some x)).1 .cleared (m x).right rest :=
      links_frame (fun z hz => off z fun h => Multiset.disjoint_left.1 apart h hz) hr
    have hcard : rest.nodes.card ≤ fuel := by
      simp only [nodes, Multiset.card_cons, Multiset.card_add] at hfuel
      omega
    have both : (Lib.PairingHeap.meld cmp root (cons x c nil)).nodes =
        root.nodes + (cons x c nil).nodes := nodes_meld hfr single
    rw [← both] at hn off ⊢
    obtain ⟨m', p', hrun, hlinks, hoff⟩ := ih (isRoot_meld hfr single) hn hmeld remaining hcard
    refine ⟨m', p', ?_, hlinks, fun z hz => ?_⟩
    · simpa [secondPass] using hrun
    · rw [hoff z hz]
      exact off z (fun h => hz (by simp [h]))

/-- `heap_merge_pairs_iter` merges the children of a removed node. -/
theorem mergePairsIter_links (cmp : Nat → Nat → Int) {fuel : Nat} (hn : f.nodes.Nodup)
    (hf : Links m .stale p f) (hfuel : f.nodes.card ≤ fuel) :
    ∃ m' p', mergePairsIter cmp fuel m p = .ok (m', p') ∧
      Links m' (.linked none) p' (mergePairs cmp f) ∧ ∀ z, z ∉ f.nodes → m' z = m z := by
  have hnAcc : (f.nodes + (nil : Forest Nat).nodes).Nodup := by simpa [nodes_nil] using hn
  have empty : Links m .cleared none nil := rfl
  obtain ⟨m₁, q, hfirst, hchain, off₁⟩ := firstPass_links cmp hnAcc hf empty hfuel
  have same : (nil : Forest Nat).nodes + (pairUp cmp f nil).nodes = f.nodes := by
    rw [nodes_pairUp]
    simp [nodes_nil]
  have hcard : (pairUp cmp f nil).nodes.card ≤ fuel := by
    rw [nodes_nil, zero_add] at same
    rwa [same]
  have start : Links m₁ (.linked none) none nil := rfl
  obtain ⟨m₂, root, hsecond, hroot, off₂⟩ :=
    secondPass_links cmp isRoot_nil (same.symm ▸ hn) start hchain hcard
  refine ⟨m₂, root, ?_, hroot, fun z hz => ?_⟩
  · cases f with
    | nil =>
      obtain rfl : p = none := hf
      obtain ⟨rfl, rfl⟩ : m = m₁ ∧ none = q := by simpa [firstPass] using hfirst
      simpa [mergePairsIter, secondPass] using hsecond
    | cons x c r =>
      obtain rfl : p = some x := hf.1
      simp only [mergePairsIter, hfirst, ok_bind, hsecond]
  · rw [off₂ z (same.symm ▸ hz), off₁ z (by simpa [nodes_nil] using hz)]

/-! ## Taking out a node -/

/-- What `ct_heap_remove` writes when `left_` of `x` is `y`. -/
def bypass (m : Mem) (x y : Nat) : Mem :=
  if (m y).child = some x then (m.relink (m x).right (some y)).setChild y (m x).right
  else (m.relink (m x).right (some y)).setRight y (m x).right

theorem bypass_off {z : Nat} (hy : z ≠ y) (hright : (m x).right ≠ some z) :
    bypass m x y z = m z := by
  unfold bypass
  split
  · rw [setChild_off hy, relink_off hright]
  · rw [setRight_off hy, relink_off hright]

theorem bypass_parent (hright : (m x).right ≠ some y) (h : (m y).child = some x) :
    bypass m x y y = { m y with child := (m x).right } := by
  unfold bypass
  rw [if_pos h]
  simp [Mem.setChild, relink_off hright]

theorem bypass_sibling (hright : (m x).right ≠ some y) (h : (m y).child ≠ some x) :
    bypass m x y y = { m y with right := (m x).right } := by
  unfold bypass
  rw [if_neg h]
  simp [Mem.setRight, relink_off hright]

theorem unlink_eq (hleft : (m x).left = some y) (hright : (m x).right ≠ some x) :
    unlink m x = .ok (bypass m x y) := by
  unfold unlink bypass
  dsimp only
  rw [hleft, relink_off hright, hleft]
  dsimp only
  rw [relink_child]

/-- The links around a node `x` of a linked forest: `y` is its parent or its
previous sibling, and the forest without the tree of `x` is linked once the
pointers to `x` bypass it. -/
structure Bypassed (m : Mem) (x y : Nat) (l p : Option Nat) (c f' : Forest Nat) : Prop where
  left : (m x).left = some y
  links : Links (bypass m x y) (.linked l) (if p = some x then (m x).right else p) f'
  before : p = some x ∧ l = some y ∨ p ≠ some x ∧ y ∈ f'.nodes
  after : ∀ w, (m x).right = some w → w ∈ f'.nodes
  children : Links m (.linked (some x)) (m x).child c

theorem links_head (hf : Links m b p f) {w : Nat} (h : p = some w) : w ∈ f.nodes := by
  by_contra hw
  exact links_ne hf hw h

theorem cut_mem {c f' : Forest Nat} (hcut : Cut x f c f') : x ∈ f.nodes := by
  rw [nodes_cut hcut]
  simp

theorem cut_sub {c f' : Forest Nat} (hcut : Cut x f c f') {z : Nat} (hz : z ∈ f'.nodes) :
    z ∈ f.nodes := by
  rw [nodes_cut hcut]
  simp [hz]

/-- A forest without the nodes that are written is linked as before. -/
theorem Bypassed.frame {l : Option Nat} {c f' g : Forest Nat} {b : Back} {q : Option Nat}
    (hb : Bypassed m x y l p c f') (hg : Links m b q g) (hy : y ∉ g.nodes)
    (apart : ∀ w ∈ f'.nodes, w ∉ g.nodes) : Links (bypass m x y) b q g := by
  apply links_frame _ hg
  intro w hw
  apply bypass_off
  · rintro rfl
    exact hy hw
  · intro next
    exact apart w (hb.after w next) hw

/-- Of what is linked to `z`, the pointer that is written is at `z` or inside. -/
theorem Bypassed.place {z : Nat} {c f' : Forest Nat} (hb : Bypassed m x y (some z) p c f') :
    y = z ∨ y ∈ f'.nodes := by
  obtain ⟨-, hy⟩ | ⟨-, hy⟩ := hb.before
  · exact Or.inl (Option.some.inj hy).symm
  · exact Or.inr hy

/-- The forest around one that `x` was taken out of. -/
theorem Bypassed.around {l : Option Nat} {z : Nat} {c f' g : Forest Nat}
    (hb : Bypassed m x y (some z) p c f') (hzx : z ≠ x)
    (links : Links (bypass m x y) (.linked l) (some z) g) (inside : z ∈ g.nodes)
    (sub : ∀ w ∈ f'.nodes, w ∈ g.nodes) : Bypassed m x y l (some z) c g := by
  have other : some z ≠ some x := fun same => hzx (Option.some.inj same)
  constructor
  · exact hb.left
  · rwa [if_neg other]
  · refine Or.inr ⟨other, ?_⟩
    obtain rfl | h := hb.place
    · exact inside
    · exact sub y h
  · exact fun w hw => sub w (hb.after w hw)
  · exact hb.children

theorem bypass_links {l : Option Nat} {c f' : Forest Nat} (hcut : Cut x f c f')
    (hn : f.nodes.Nodup) (hf : Links m (.linked l) p f) (hl : ∀ u, l = some u → u ∉ f.nodes)
    (hx : p = some x → l ≠ none) : ∃ y, Bypassed m x y l p c f' := by
  induction hcut generalizing l p with
  | here c r =>
    obtain ⟨rfl, hleft, hc, hr⟩ := hf
    obtain ⟨-, hnr, -, -, -⟩ := nodup_child hn
    obtain ⟨y, rfl⟩ := Option.ne_none_iff_exists'.1 (hx rfl)
    have hyr : y ∉ r.nodes := fun h => hl y rfl (by simp [nodes, h])
    refine ⟨y, hleft, ?_, Or.inl ⟨rfl, rfl⟩, fun w hw => links_head hr hw, hc⟩
    rw [if_pos rfl]
    apply links_frame _ (links_relink (some y) hnr hr)
    intro z hz
    have hzy : z ≠ y := by
      rintro rfl
      exact hyr hz
    unfold bypass
    split
    · exact setChild_off hzy
    · exact setRight_off hzy
  | @child z c r d c' hcut ih =>
    obtain ⟨rfl, hleft, hc, hr⟩ := hf
    obtain ⟨hnc, -, hzc, hzr, apart⟩ := nodup_child hn
    obtain ⟨y, hb⟩ := ih hnc hc (by rintro u hu; cases hu; exact hzc) (fun _ => Option.some_ne_none z)
    have hzx : z ≠ x := by
      rintro rfl
      exact hzc (cut_mem hcut)
    have hright : (m x).right ≠ some z := fun h => hzc (cut_sub hcut (hb.after z h))
    have head : bypass m x y z =
        { m z with child := if (m z).child = some x then (m x).right else (m z).child } := by
      obtain ⟨hchild, hy⟩ | ⟨hchild, hy⟩ := hb.before
      · obtain rfl := Option.some.inj hy
        rw [bypass_parent hright hchild, if_pos hchild]
      · have hzy : z ≠ y := by
          rintro rfl
          exact hzc (cut_sub hcut hy)
        rw [bypass_off hzy hright, if_neg hchild]
    have hyr : y ∉ r.nodes := by
      obtain rfl | h := hb.place
      · exact hzr
      · exact apart y (cut_sub hcut h)
    refine ⟨y, hb.around hzx ?_ (by simp [nodes]) (fun w hw => by simp [nodes, hw])⟩
    unfold Links
    rw [head]
    exact ⟨rfl, hleft, hb.links, hb.frame hr hyr (fun w hw => apart w (cut_sub hcut hw))⟩
  | @rest z c r d r' hcut ih =>
    obtain ⟨rfl, hleft, hc, hr⟩ := hf
    obtain ⟨-, hnr, hzc, hzr, apart⟩ := nodup_child hn
    obtain ⟨y, hb⟩ := ih hnr hr (by rintro u hu; cases hu; exact hzr) (fun _ => Option.some_ne_none z)
    have hzx : z ≠ x := by
      rintro rfl
      exact hzr (cut_mem hcut)
    have hright : (m x).right ≠ some z := fun h => hzr (cut_sub hcut (hb.after z h))
    have notChild : (m z).child ≠ some x :=
      links_ne hc (fun h => apart x h (cut_mem hcut))
    have head : bypass m x y z =
        { m z with right := if (m z).right = some x then (m x).right else (m z).right } := by
      obtain ⟨hnext, hy⟩ | ⟨hnext, hy⟩ := hb.before
      · obtain rfl := Option.some.inj hy
        rw [bypass_sibling hright notChild, if_pos hnext]
      · have hzy : z ≠ y := by
          rintro rfl
          exact hzr (cut_sub hcut hy)
        rw [bypass_off hzy hright, if_neg hnext]
    have hyc : y ∉ c.nodes := by
      obtain rfl | h := hb.place
      · exact hzc
      · exact fun hw => apart y hw (cut_sub hcut h)
    refine ⟨y, hb.around hzx ?_ (by simp [nodes]) (fun w hw => by simp [nodes, hw])⟩
    unfold Links
    rw [head]
    exact ⟨rfl, hleft, hb.frame hc hyc (fun w hw hw' => apart w hw' (cut_sub hcut hw)), hb.links⟩

/-- Unlinking a node other than the root cuts it out of the tree and leaves its
children linked. -/
theorem unlink_links {c f' : Forest Nat} (hcut : Cut x f c f') (hn : f.nodes.Nodup)
    (hf : Links m (.linked none) p f) (hx : p ≠ some x) :
    ∃ m', unlink m x = .ok m' ∧ Links m' (.linked none) p f' ∧
      Links m' (.linked (some x)) (m' x).child c ∧ ∀ z, z ∉ f'.nodes → m' z = m z := by
  obtain ⟨y, hb⟩ := bypass_links hcut hn hf nofun (fun h => absurd h hx)
  have hy : y ∈ f'.nodes := by
    obtain ⟨h, -⟩ | ⟨-, h⟩ := hb.before
    · exact absurd h hx
    · exact h
  rw [nodes_cut hcut, Multiset.singleton_add, Multiset.nodup_cons, Multiset.mem_add,
    not_or] at hn
  obtain ⟨⟨-, hxf⟩, hn⟩ := hn
  have off (z : Nat) (hz : z ∉ f'.nodes) : bypass m x y z = m z := by
    apply bypass_off
    · rintro rfl
      exact hz hy
    · exact fun h => hz (hb.after z h)
  have hright : (m x).right ≠ some x := fun h => hxf (hb.after x h)
  have hlinks := hb.links
  rw [if_neg hx] at hlinks
  refine ⟨bypass m x y, unlink_eq hb.left hright, hlinks, ?_, off⟩
  rw [off x hxf]
  exact links_frame
    (fun z hz => off z (Multiset.disjoint_left.1 (Multiset.nodup_add.1 hn).2.2 hz)) hb.children

end Coter.Heap
