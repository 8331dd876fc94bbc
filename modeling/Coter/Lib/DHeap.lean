import Coter.Lib.Comparator

/-!
# Order in a d-ary heap

The heap is a function from positions to elements, with positions `0..n-1` in
use and position `(i - 1) / d` above position `i`. Only order is treated here:

* `UpOrder`, with `UpOrder.move` and `UpOrder.finish`: a hole that moves up;
* `sink_ordered_iff`: an element that replaces the root and is exchanged with
  one child restores the order exactly when it fits above that child's children;
* `leastChild_spec`: what a scan of a position and its children finds;
* `Ordered.root_min`: the root of an ordered heap is a least element;
* `elements_move`, `elements_take`: a moving hole and a removed root keep the
  elements, whatever the comparator says.
-/

namespace Lib.DHeap

open Function (update)
open Lib.Comparator

variable {α : Type}

/-- The position above `i`. Position 0 is its own parent and no position's child. -/
def parent (d i : Nat) : Nat := (i - 1) / d

variable {d : Nat} {cmp : α → α → Int} {f : Nat → α} {n : Nat}

theorem parent_lt {i : Nat} (hi : 0 < i) : parent d i < i := by
  have := Nat.div_le_self (i - 1) d
  simp only [parent]
  omega

/-- No element compares before the element above it. -/
def Ordered (d : Nat) (cmp : α → α → Int) (f : Nat → α) (n : Nat) : Prop :=
  ∀ i, 0 < i → i < n → ¬ cmp (f i) (f (parent d i)) < 0

theorem Ordered.shrink {m : Nat} (h : Ordered d cmp f n) (hm : m ≤ n) : Ordered d cmp f m :=
  fun i hi him => h i hi (by omega)

theorem Ordered.congr {g : Nat → α} (h : Ordered d cmp f n) (hfg : ∀ i, i < n → g i = f i) :
    Ordered d cmp g n := by
  intro i hi hin
  have := parent_lt (d := d) hi
  rw [hfg i hin, hfg _ (by omega)]
  exact h i hi hin

theorem Ordered.root_min (hc : TotalPreorder cmp) (h : Ordered d cmp f n) :
    ∀ i, i < n → cmp (f 0) (f i) ≤ 0 := by
  intro i
  induction i using Nat.strongRecOn with
  | ind i ih =>
    intro hin
    by_cases hi : 0 < i
    · have up := parent_lt (d := d) hi
      exact hc.trans _ _ _ (ih _ up (by omega)) (hc.not_before.1 (h i hi hin))
    · have : i = 0 := by omega
      subst this
      exact hc.refl _

/-! ## A hole that moves up -/

/-- The element `e` waits for a place while position `hole` is open: the pairs
off the hole are in order, and what hangs below the hole is after both `e` and
the element above the hole. -/
structure UpOrder (d : Nat) (cmp : α → α → Int) (f : Nat → α) (n hole : Nat) (e : α) : Prop where
  except : ∀ i, 0 < i → i < n → i ≠ hole → parent d i ≠ hole → ¬ cmp (f i) (f (parent d i)) < 0
  grand : 0 < hole → ∀ c, 0 < c → c < n → parent d c = hole → ¬ cmp (f c) (f (parent d hole)) < 0
  below : ∀ c, 0 < c → c < n → parent d c = hole → ¬ cmp (f c) e < 0

/-- A new last position is a hole nothing hangs below. -/
theorem Ordered.upOrder_last (h : Ordered d cmp f n) (e : α) : UpOrder d cmp f (n + 1) n e where
  except i hi hin hne _ := h i hi (by omega)
  grand _ c hc hcn hp := by have := parent_lt (d := d) hc; omega
  below c hc hcn hp := by have := parent_lt (d := d) hc; omega

/-- The hole moves to its parent, whose element comes down. -/
theorem UpOrder.move (hc : TotalPreorder cmp) {hole : Nat} {e : α} (o : UpOrder d cmp f n hole e)
    (hpos : 0 < hole) (hlt : hole < n) (hbefore : cmp e (f (parent d hole)) < 0) :
    UpOrder d cmp (update f hole (f (parent d hole))) n (parent d hole) e := by
  have up := parent_lt (d := d) hpos
  have above : 0 < parent d hole →
      ¬ cmp (f (parent d hole)) (f (parent d (parent d hole))) < 0 := by
    intro hp
    have := parent_lt (d := d) hp
    exact o.except _ hp (by omega) (by omega) (by omega)
  have sibling : ∀ c, 0 < c → c < n → parent d c = parent d hole → c ≠ hole →
      ¬ cmp (f c) (f (parent d hole)) < 0 := by
    intro c hc0 hcn hp hne
    have := o.except c hc0 hcn hne (by omega)
    rwa [hp] at this
  constructor
  · intro i hi hin hne hpne
    have hih : i ≠ hole := by rintro rfl; exact hpne rfl
    rw [Function.update_of_ne hih]
    by_cases hph : parent d i = hole
    · rw [hph, Function.update_self]
      exact o.grand hpos i hi hin hph
    · rw [Function.update_of_ne hph]
      exact o.except i hi hin hih hph
  · intro hp c hc0 hcn hcp
    have := parent_lt (d := d) hp
    rw [Function.update_of_ne (show parent d (parent d hole) ≠ hole by omega)]
    by_cases hch : c = hole
    · subst hch
      rw [Function.update_self]
      exact above hp
    · rw [Function.update_of_ne hch]
      exact hc.not_before.2 (hc.trans _ _ _ (hc.not_before.1 (above hp))
        (hc.not_before.1 (sibling c hc0 hcn hcp hch)))
  · intro c hc0 hcn hcp
    by_cases hch : c = hole
    · subst hch
      rw [Function.update_self]
      have := (hc.flip e (f (parent d c))).1 hbefore
      omega
    · rw [Function.update_of_ne hch]
      have hle := hc.not_before.1 (sibling c hc0 hcn hcp hch)
      have := (hc.flip e (f c)).1 (hc.before_of_before hbefore hle)
      omega

/-- The element goes into the hole once it is not before the element above. -/
theorem UpOrder.finish {hole : Nat} {e : α} (o : UpOrder d cmp f n hole e)
    (hstop : 0 < hole → ¬ cmp e (f (parent d hole)) < 0) :
    Ordered d cmp (update f hole e) n := by
  intro i hi hin
  have up := parent_lt (d := d) hi
  by_cases hih : i = hole
  · subst hih
    rw [Function.update_self, Function.update_of_ne (by omega)]
    exact hstop hi
  · rw [Function.update_of_ne hih]
    by_cases hph : parent d i = hole
    · rw [hph, Function.update_self]
      exact o.below i hi hin hph
    · rw [Function.update_of_ne hph]
      exact o.except i hi hin hih hph

/-! ## One exchange at the root -/

/-- `t` replaces the root and is not after any child of the root. -/
theorem root_ordered {t : α} (h : Ordered d cmp f n)
    (hstop : ∀ c, 0 < c → c < n → parent d c = 0 → ¬ cmp (f c) t < 0) :
    Ordered d cmp (update f 0 t) n := by
  intro i hi hin
  rw [Function.update_of_ne (by omega : i ≠ 0)]
  by_cases hp : parent d i = 0
  · rw [hp, Function.update_self]
    exact hstop i hi hin hp
  · rw [Function.update_of_ne hp]
    exact h i hi hin

/-- `t` replaces the root and is exchanged once, with the least child `s`. The
heap is in order again exactly when `t` fits above the children of `s`. -/
theorem sink_ordered_iff (hc : TotalPreorder cmp) {t : α} {s : Nat} (h : Ordered d cmp f n)
    (hs : 0 < s) (hsn : s < n) (hroot : parent d s = 0) (hbefore : cmp (f s) t < 0)
    (hleast : ∀ c, 0 < c → c < n → parent d c = 0 → cmp (f s) (f c) ≤ 0) :
    Ordered d cmp (update (update f 0 (f s)) s t) n ↔
      ∀ c, 0 < c → c < n → parent d c = s → ¬ cmp (f c) t < 0 := by
  constructor
  · intro ho c hc0 hcn hp
    have hcs : c ≠ s := by rintro rfl; have := parent_lt (d := d) hc0; omega
    have := ho c hc0 hcn
    rwa [hp, Function.update_self, Function.update_of_ne hcs,
      Function.update_of_ne (by omega : c ≠ 0)] at this
  · intro fits i hi hin
    by_cases his : i = s
    · subst his
      rw [Function.update_self, hroot, Function.update_of_ne (by omega : 0 ≠ i),
        Function.update_self]
      have := (hc.flip (f i) t).1 hbefore
      omega
    · rw [Function.update_of_ne his, Function.update_of_ne (by omega : i ≠ 0)]
      by_cases hps : parent d i = s
      · rw [hps, Function.update_self]
        exact fits i hi hin hps
      · rw [Function.update_of_ne hps]
        by_cases hp0 : parent d i = 0
        · rw [hp0, Function.update_self]
          exact hc.not_before.2 (hleast i hi hin hp0)
        · rw [Function.update_of_ne hp0]
          exact h i hi hin

/-! ## The least child -/

/-- The least of position `i` and its children below `n`; the first of several. -/
def leastChild (d : Nat) (cmp : α → α → Int) (f : Nat → α) (n i : Nat) : Nat :=
  (List.range d).foldl
    (fun s k => if d * i + (k + 1) < n ∧ cmp (f (d * i + (k + 1))) (f s) < 0 then
      d * i + (k + 1) else s) i

/-- `s` is the first of the least children of `i`, and is before `i` itself. -/
structure FirstLeast (d : Nat) (cmp : α → α → Int) (f : Nat → α) (n i s : Nat) : Prop where
  child : 0 < s ∧ s < n ∧ parent d s = i
  before : cmp (f s) (f i) < 0
  least : ∀ c, 0 < c → c < n → parent d c = i → cmp (f s) (f c) ≤ 0
  first : ∀ c, 0 < c → c < s → parent d c = i → cmp (f s) (f c) < 0

theorem FirstLeast.unique {i s t : Nat} (hs : FirstLeast d cmp f n i s)
    (ht : FirstLeast d cmp f n i t) (hc : TotalPreorder cmp) : s = t := by
  have wins {a b : Nat} (ha : FirstLeast d cmp f n i a) (hb : FirstLeast d cmp f n i b)
      (lt : a < b) : False := by
    have strict := hb.first a ha.child.1 lt ha.child.2.2
    have := ha.least b hb.child.1 hb.child.2.1 hb.child.2.2
    exact hc.not_before.2 this strict
  rcases Nat.lt_trichotomy s t with lt | eq | gt
  · exact (wins hs ht lt).elim
  · exact eq
  · exact (wins ht hs gt).elim

theorem parent_child (hd : 0 < d) {i k : Nat} (hk : k < d) : parent d (d * i + (k + 1)) = i := by
  simp only [parent, show d * i + (k + 1) - 1 = d * i + k by omega]
  rw [Nat.mul_add_div hd, Nat.div_eq_of_lt hk, Nat.add_zero]

theorem child_of_parent (hd : 0 < d) {i c : Nat} (hc : 0 < c) (hp : parent d c = i) :
    ∃ k, k < d ∧ c = d * i + (k + 1) := by
  refine ⟨(c - 1) % d, Nat.mod_lt _ hd, ?_⟩
  have := Nat.div_add_mod (c - 1) d
  simp only [parent] at hp
  rw [hp] at this
  omega

/-- What the scan knows after the first `m` children. -/
structure Scanned (d : Nat) (cmp : α → α → Int) (f : Nat → α) (n i m s : Nat) : Prop where
  place : s = i ∨ ∃ k, k < m ∧ s = d * i + (k + 1) ∧ s < n ∧ cmp (f s) (f i) < 0 ∧
    ∀ j, j < k → cmp (f s) (f (d * i + (j + 1))) < 0
  least : ∀ k, k < m → d * i + (k + 1) < n → cmp (f s) (f (d * i + (k + 1))) ≤ 0

theorem scanned (hc : TotalPreorder cmp) (i m : Nat) :
    Scanned d cmp f n i m ((List.range m).foldl
      (fun s k => if d * i + (k + 1) < n ∧ cmp (f (d * i + (k + 1))) (f s) < 0 then
        d * i + (k + 1) else s) i) := by
  induction m with
  | zero => exact ⟨Or.inl rfl, fun k hk => by omega⟩
  | succ m ih =>
    rw [List.range_succ, List.foldl_append]
    generalize (List.range m).foldl _ i = s at ih ⊢
    simp only [List.foldl_cons, List.foldl_nil]
    split
    · rename_i taken
      obtain ⟨hn, hlt⟩ := taken
      have strict : ∀ k, k < m → cmp (f (d * i + (m + 1))) (f (d * i + (k + 1))) < 0 := by
        intro k hk
        exact hc.before_of_before hlt (ih.least k hk (by omega))
      refine ⟨Or.inr ⟨m, by omega, rfl, hn, ?_, strict⟩, ?_⟩
      · rcases ih.place with rfl | ⟨k, _, _, _, hbefore, _⟩
        · exact hlt
        · exact hc.before_of_before hlt (by omega)
      · intro k hk hkn
        by_cases hkm : k = m
        · subst hkm
          exact hc.refl _
        · have := strict k (by omega)
          omega
    · rename_i kept
      refine ⟨?_, ?_⟩
      · rcases ih.place with h | ⟨k, hk, h⟩
        · exact Or.inl h
        · exact Or.inr ⟨k, by omega, h⟩
      · intro k hk hkn
        by_cases hkm : k = m
        · subst hkm
          exact hc.not_before.1 (fun hlt => kept ⟨hkn, hlt⟩)
        · exact ih.least k (by omega) hkn

/-- The scan keeps `i` when no child is before it, and else finds the first
least child. -/
theorem leastChild_spec (hc : TotalPreorder cmp) (hd : 0 < d) (i : Nat) :
    (leastChild d cmp f n i = i ∧ ∀ c, 0 < c → c < n → parent d c = i → ¬ cmp (f c) (f i) < 0) ∨
    FirstLeast d cmp f n i (leastChild d cmp f n i) := by
  have h : Scanned d cmp f n i d (leastChild d cmp f n i) := scanned hc i d
  generalize leastChild d cmp f n i = s at h ⊢
  have least : ∀ c, 0 < c → c < n → parent d c = i → cmp (f s) (f c) ≤ 0 := by
    intro c hc0 hcn hp
    obtain ⟨k, hk, rfl⟩ := child_of_parent hd hc0 hp
    exact h.least k hk hcn
  rcases h.place with rfl | ⟨k, hk, rfl, hn, hbefore, hfirst⟩
  · exact Or.inl ⟨rfl, fun c hc0 hcn hp => hc.not_before.2 (least c hc0 hcn hp)⟩
  · refine Or.inr ⟨⟨by omega, hn, parent_child hd hk⟩, hbefore, least, ?_⟩
    intro c hc0 hcs hp
    obtain ⟨j, _, rfl⟩ := child_of_parent hd hc0 hp
    exact hfirst j (by omega)

/-! ## The elements -/

/-- The elements of the first `n` positions. -/
def elements (f : Nat → α) (n : Nat) : List α := (List.range n).map f

theorem elements_getElem? (f : Nat → α) (n i : Nat) :
    (elements f n)[i]? = if i < n then some (f i) else none := by
  by_cases h : i < n
  · simp [elements, h]
  · simp [elements, h]

theorem elements_length (f : Nat → α) (n : Nat) : (elements f n).length = n := by
  simp [elements]

theorem elements_succ (f : Nat → α) (n : Nat) : elements f (n + 1) = elements f n ++ [f n] := by
  simp [elements, List.range_succ]

theorem elements_congr {g : Nat → α} (h : ∀ i < n, g i = f i) : elements g n = elements f n := by
  apply List.map_congr_left
  intro i hi
  exact h i (List.mem_range.1 hi)

theorem mem_elements {x : α} : x ∈ elements f n ↔ ∃ i, i < n ∧ f i = x := by
  simp [elements]

theorem elements_update (f : Nat → α) (n i : Nat) (t : α) :
    elements (update f i t) n = (elements f n).set i t := by
  apply List.ext_getElem?
  intro j
  rw [List.getElem?_set, elements_length, elements_getElem?, elements_getElem?]
  by_cases hij : i = j
  · subst hij
    simp
  · rw [Function.update_of_ne (Ne.symm hij), if_neg hij]

/-- A hole moves from `i` to `j`, and the waiting element with it. -/
theorem elements_move {i j : Nat} (hi : i < n) (hj : j < n) (hij : j ≠ i) (t : α) :
    (elements (update (update f i (f j)) j t) n).Perm (elements (update f i t) n) := by
  have length := elements_length (update f i t) n
  have hi' : i < (elements (update f i t) n).length := by omega
  have hj' : j < (elements (update f i t) n).length := by omega
  have swapped := List.set_set_perm hi' hj'
  have here : (elements (update f i t) n)[i] = t := by simp [elements]
  have there : (elements (update f i t) n)[j] = f j := by simp [elements, Function.update_of_ne hij]
  rw [here, there, elements_update f, List.set_set] at swapped
  rwa [elements_update, elements_update, elements_update]

/-- The root is taken out and the last element put in its place. -/
theorem elements_take (f : Nat → α) (n : Nat) :
    (f 0 :: elements (update f 0 (f n)) n).Perm (elements f (n + 1)) := by
  cases n with
  | zero => exact List.Perm.refl _
  | succ n =>
    have moved := elements_move (f := f) (n := n + 1 + 1) (i := 0) (j := n + 1) (by omega) (by omega)
      (by omega) (f 0)
    rw [Function.update_eq_self, elements_succ (update _ (n + 1) (f 0)), Function.update_self] at moved
    have rest : elements (update (update f 0 (f (n + 1))) (n + 1) (f 0)) (n + 1) =
        elements (update f 0 (f (n + 1))) (n + 1) := by
      apply elements_congr
      intro i hi
      rw [Function.update_of_ne (by omega)]
    rw [rest] at moved
    exact (List.perm_append_singleton _ _).symm.trans moved

/-- A scan that moves to a child finds one that is there. -/
theorem leastChild_place (d : Nat) (cmp : α → α → Int) (f : Nat → α) (n i : Nat) :
    leastChild d cmp f n i = i ∨ i < leastChild d cmp f n i ∧ leastChild d cmp f n i < n := by
  refine List.foldlRecOn (motive := fun s => s = i ∨ i < s ∧ s < n) (List.range d) _ (Or.inl rfl) ?_
  intro s hs k hk
  have hkd := List.mem_range.1 hk
  have := Nat.mul_le_mul_right i (show 1 ≤ d by omega)
  split
  · rename_i taken
    exact Or.inr ⟨by omega, taken.1⟩
  · exact hs

end Lib.DHeap
