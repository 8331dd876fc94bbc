import Mathlib

/-!
# Doubly linked rings

Nodes with a link in each direction. A segment is linked when every two
neighbours in it point to each other; a ring is a linked segment that begins and
ends with the same node.

* `keep`: a segment stays linked where its own links are left alone;
* `join`: two segments and the links between their ends;
* `ring_insert`, `ring_remove`: a ring with another linked segment spliced in at a
  cut, and a ring with a node less;
* `walk_ring`: following the links from the head visits the nodes in order.
-/

namespace Lib

/-- The links of all nodes. -/
structure Links (α : Type) where
  prev : α → α
  next : α → α

namespace Links

variable {α : Type}

section
variable [DecidableEq α]

def setPrev (l : Links α) (x y : α) : Links α := { l with prev := Function.update l.prev x y }

def setNext (l : Links α) (x y : α) : Links α := { l with next := Function.update l.next x y }

@[simp] theorem setPrev_next (l : Links α) (x y : α) : (l.setPrev x y).next = l.next := rfl

@[simp] theorem setNext_prev (l : Links α) (x y : α) : (l.setNext x y).prev = l.prev := rfl

theorem setPrev_prev (l : Links α) (x y z : α) :
    (l.setPrev x y).prev z = if z = x then y else l.prev z := Function.update_apply ..

theorem setNext_next (l : Links α) (x y z : α) :
    (l.setNext x y).next z = if z = x then y else l.next z := Function.update_apply ..

end

/-- Neighbours point to each other. -/
def Linked (l : Links α) (xs : List α) : Prop :=
  xs.IsChain fun x y => l.next x = y ∧ l.prev y = x

/-- The ring of head `h` with the nodes `ns`. -/
def Ring (l : Links α) (h : α) (ns : List α) : Prop := l.Linked (h :: (ns ++ [h]))

variable {l l' : Links α} {xs ys ns ms : List α} {a b h g x y : α}

theorem linked_single : l.Linked [a] := List.isChain_singleton a

theorem linked_cons : l.Linked (a :: b :: xs) ↔ (l.next a = b ∧ l.prev b = a) ∧ l.Linked (b :: xs) :=
  List.isChain_cons_cons

/-- A segment stays linked where its own links are left alone. -/
theorem keep (hl : l.Linked xs) (next : ∀ x ∈ xs.dropLast, l'.next x = l.next x)
    (prev : ∀ y ∈ xs.tail, l'.prev y = l.prev y) : l'.Linked xs := by
  induction xs with
  | nil => exact List.isChain_nil
  | cons a xs ih =>
    cases xs with
    | nil => exact linked_single
    | cons b xs =>
      obtain ⟨⟨hn, hp⟩, rest⟩ := linked_cons.1 hl
      refine linked_cons.2 ⟨⟨?_, ?_⟩, ih rest ?_ ?_⟩
      · rw [next a (by simp), hn]
      · rw [prev b (by simp), hp]
      · intro x hx
        exact next x (List.mem_cons_of_mem a hx)
      · intro y hy
        exact prev y (List.mem_cons_of_mem b hy)

/-- Two linked segments, and the links between their ends. -/
theorem join (first : l.Linked (xs ++ [a])) (second : l.Linked (b :: ys)) (hn : l.next a = b)
    (hp : l.prev b = a) : l.Linked (xs ++ [a] ++ b :: ys) := by
  apply List.IsChain.append first second
  intro x hx y hy
  obtain rfl : a = x := by simpa using hx
  obtain rfl : b = y := by simpa using hy
  exact ⟨hn, hp⟩

theorem split (hl : l.Linked (xs ++ [a] ++ b :: ys)) :
    l.Linked (xs ++ [a]) ∧ l.Linked (b :: ys) ∧ l.next a = b ∧ l.prev b = a := by
  obtain ⟨first, second, link⟩ := List.isChain_append.1 hl
  obtain ⟨hn, hp⟩ := link a (by simp) b (by simp)
  exact ⟨first, second, hn, hp⟩

/-- A ring of head `h` cut between the nodes `pre` and the nodes `post`: `a` is the
last node in front of the cut and `b` the first one behind it. -/
structure Cut (h : α) (pre post p : List α) (a b : α) (q : List α) : Prop where
  front : h :: pre = p ++ [a]
  back : post ++ [h] = b :: q

theorem exists_cut (h : α) (pre post : List α) : ∃ p a b q, Cut h pre post p a b q := by
  obtain ⟨p, a, hp⟩ : ∃ p a, h :: pre = p ++ [a] :=
    ⟨(h :: pre).dropLast, (h :: pre).getLast (List.cons_ne_nil h pre),
      (List.dropLast_append_getLast _).symm⟩
  cases post with
  | nil => exact ⟨p, a, h, [], hp, rfl⟩
  | cons b post => exact ⟨p, a, b, post ++ [h], hp, rfl⟩

section
variable {pre post p q : List α}

theorem Cut.whole (c : Cut h pre post p a b q) (ms : List α) :
    h :: (pre ++ ms ++ post ++ [h]) = p ++ [a] ++ (ms ++ b :: q) := by
  rw [List.append_assoc, List.append_assoc, ← List.cons_append, c.front, c.back]

theorem Cut.tail_front (c : Cut h pre post p a b q) : (p ++ [a]).tail = pre := by
  rw [← c.front, List.tail_cons]

theorem Cut.dropLast_back (c : Cut h pre post p a b q) : (b :: q).dropLast = post := by
  rw [← c.back, List.dropLast_concat]

/-- The nodes at a cut are elsewhere neither in front nor behind. -/
theorem Cut.apart (c : Cut h pre post p a b q) (nodup : (h :: (pre ++ post)).Nodup) :
    a ∉ p ∧ a ∉ post ∧ b ∉ pre ∧ b ∉ q := by
  have first : (p ++ [a] ++ post).Nodup := by
    rw [← c.front]
    exact nodup
  have second : (pre ++ (b :: q)).Nodup := by
    rw [← c.back, ← List.append_assoc]
    exact (List.perm_append_singleton h (pre ++ post)).nodup_iff.2 nodup
  obtain ⟨inner, _, behind⟩ := List.nodup_append.1 first
  obtain ⟨_, rest, between⟩ := List.nodup_append.1 second
  refine ⟨fun ha => ?_, fun ha => ?_, fun hb => ?_, (List.nodup_cons.1 rest).1⟩
  · exact (List.nodup_append.1 inner).2.2 a ha a (List.mem_singleton_self a) rfl
  · exact behind a (by simp) a ha rfl
  · exact between b hb b (List.mem_cons_self ..) rfl

theorem Cut.mem_ends (c : Cut h pre post p a b q) :
    a ∈ h :: (pre ++ post) ∧ b ∈ h :: (pre ++ post) ∧ (∀ y ∈ p, y ∈ h :: (pre ++ post)) ∧
      ∀ y ∈ q, y ∈ h :: (pre ++ post) := by
  have front (y : α) (hy : y ∈ p ++ [a]) : y ∈ h :: (pre ++ post) := by
    rw [← c.front] at hy
    exact List.mem_append_left post hy
  have back (y : α) (hy : y ∈ b :: q) : y ∈ h :: (pre ++ post) := by
    rw [← c.back] at hy
    rcases List.mem_append.1 hy with hy | hy
    · exact List.mem_cons_of_mem h (List.mem_append_right pre hy)
    · rw [List.mem_singleton.1 hy]
      exact List.mem_cons_self ..
  exact ⟨front a (by simp), back b (List.mem_cons_self ..),
    fun y hy => front y (List.mem_append_left _ hy), fun y hy => back y (List.mem_cons_of_mem b hy)⟩

/-- A linked segment `ms` from `f` to `z`, spliced into a ring at a cut. -/
theorem ring_insert [DecidableEq α] (ring : l.Ring h (pre ++ post))
    (nodup : (h :: (pre ++ post)).Nodup) (c : Cut h pre post p a b q) {f z : α} {fs zs : List α}
    (hf : ms = f :: fs) (hz : ms = zs ++ [z]) (segment : l.Linked ms) (inner : ms.Nodup)
    (fresh : ∀ y ∈ ms, y ∉ h :: (pre ++ post))
    (next : ∀ y ∈ h :: (pre ++ ms ++ post),
      l'.next y = if y = a then f else if y = z then b else l.next y)
    (prev : ∀ y ∈ h :: (pre ++ ms ++ post),
      l'.prev y = if y = b then z else if y = f then a else l.prev y) :
    l'.Ring h (pre ++ ms ++ post) := by
  obtain ⟨ap, apost, bpre, bq⟩ := c.apart nodup
  obtain ⟨amem, bmem, pmem, qmem⟩ := c.mem_ends
  have old (y : α) (hy : y ∈ h :: (pre ++ post)) : y ∈ h :: (pre ++ ms ++ post) := by
    simp only [List.mem_cons, List.mem_append] at hy ⊢
    tauto
  have new (y : α) (hy : y ∈ ms) : y ∈ h :: (pre ++ ms ++ post) := by
    simp [hy]
  have fms : f ∈ ms := by simp [hf]
  have zms : z ∈ ms := by simp [hz]
  have whole := ring
  rw [Ring, show h :: (pre ++ post ++ [h]) = p ++ [a] ++ b :: q by simpa using c.whole []] at whole
  obtain ⟨first, second, _, _⟩ := split whole
  have first' : l'.Linked (p ++ [a]) := by
    apply keep first
    · intro y hy
      rw [List.dropLast_concat] at hy
      rw [next y (old y (pmem y hy)), if_neg, if_neg]
      · rintro rfl
        exact fresh y zms (pmem y hy)
      · rintro rfl
        exact ap hy
    · intro y hy
      rw [c.tail_front] at hy
      have hy' : y ∈ h :: (pre ++ post) := by simp [hy]
      rw [prev y (old y hy'), if_neg, if_neg]
      · rintro rfl
        exact fresh y fms hy'
      · rintro rfl
        exact bpre hy
  have second' : l'.Linked (b :: q) := by
    apply keep second
    · intro y hy
      rw [c.dropLast_back] at hy
      have hy' : y ∈ h :: (pre ++ post) := by simp [hy]
      rw [next y (old y hy'), if_neg, if_neg]
      · rintro rfl
        exact fresh y zms hy'
      · rintro rfl
        exact apost hy
    · intro y hy
      rw [List.tail_cons] at hy
      rw [prev y (old y (qmem y hy)), if_neg, if_neg]
      · rintro rfl
        exact fresh y fms (qmem y hy)
      · rintro rfl
        exact bq hy
  have segment' : l'.Linked ms := by
    apply keep segment
    · intro y hy
      have hy' := List.dropLast_subset ms hy
      rw [next y (new y hy'), if_neg, if_neg]
      · rintro rfl
        rw [hz, List.dropLast_concat] at hy
        rw [hz] at inner
        exact (List.nodup_append.1 inner).2.2 y hy y (List.mem_singleton_self y) rfl
      · rintro rfl
        exact fresh y hy' amem
    · intro y hy
      have hy' := List.mem_of_mem_tail hy
      rw [prev y (new y hy'), if_neg, if_neg]
      · rintro rfl
        rw [hf, List.tail_cons] at hy
        rw [hf] at inner
        exact (List.nodup_cons.1 inner).1 hy
      · rintro rfl
        exact fresh y hy' bmem
  have za : z ≠ a := fun e => fresh z zms (e ▸ amem)
  have fb : f ≠ b := fun e => fresh f fms (e ▸ bmem)
  have last : l'.Linked (ms ++ b :: q) := by
    rw [hz] at segment' ⊢
    apply join segment' second'
    · rw [next z (new z zms), if_neg za, if_pos rfl]
    · rw [prev b (old b bmem), if_pos rfl]
  rw [Ring, c.whole ms, hf, List.cons_append]
  rw [hf, List.cons_append] at last
  apply join first' last
  · rw [next a (old a amem), if_pos rfl]
  · rw [prev f (new f fms), if_neg fb, if_pos rfl]

/-- A ring closes up where the node `x` at a cut is taken out. -/
theorem ring_remove [DecidableEq α] (ring : l.Ring h (pre ++ x :: post))
    (nodup : (h :: (pre ++ x :: post)).Nodup) (c : Cut h pre post p a b q)
    (next : ∀ y ∈ h :: (pre ++ post), l'.next y = if y = a then b else l.next y)
    (prev : ∀ y ∈ h :: (pre ++ post), l'.prev y = if y = b then a else l.prev y) :
    l'.Ring h (pre ++ post) := by
  have rest : (h :: (pre ++ post)).Nodup :=
    nodup.sublist ((List.Sublist.append_left (List.sublist_cons_self x post) pre).cons_cons h)
  obtain ⟨ap, apost, bpre, bq⟩ := c.apart rest
  obtain ⟨amem, bmem, pmem, qmem⟩ := c.mem_ends
  have whole := ring
  rw [Ring, show h :: (pre ++ x :: post ++ [h]) = p ++ [a] ++ x :: b :: q by
    simpa using c.whole [x]] at whole
  obtain ⟨first, behind, _, _⟩ := split whole
  have second := (linked_cons.1 behind).2
  have first' : l'.Linked (p ++ [a]) := by
    apply keep first
    · intro y hy
      rw [List.dropLast_concat] at hy
      rw [next y (pmem y hy), if_neg]
      rintro rfl
      exact ap hy
    · intro y hy
      rw [c.tail_front] at hy
      rw [prev y (by simp [hy]), if_neg]
      rintro rfl
      exact bpre hy
  have second' : l'.Linked (b :: q) := by
    apply keep second
    · intro y hy
      rw [c.dropLast_back] at hy
      rw [next y (by simp [hy]), if_neg]
      rintro rfl
      exact apost hy
    · intro y hy
      rw [List.tail_cons] at hy
      rw [prev y (qmem y hy), if_neg]
      rintro rfl
      exact bq hy
  rw [Ring, show h :: (pre ++ post ++ [h]) = p ++ [a] ++ b :: q by simpa using c.whole []]
  apply join first' second'
  · rw [next a amem, if_pos rfl]
  · rw [prev b bmem, if_pos rfl]

end

/-! ## What a ring says -/

/-- The links at a cut. -/
theorem ring_at {pre post p q : List α} (ring : l.Ring h (pre ++ post))
    (c : Cut h pre post p a b q) : l.next a = b ∧ l.prev b = a := by
  rw [Ring, show h :: (pre ++ post ++ [h]) = p ++ [a] ++ b :: q by simpa using c.whole []] at ring
  exact (split ring).2.2

/-- The links of a node and of its neighbours. -/
theorem ring_node {pre post p q : List α} (ring : l.Ring h (pre ++ x :: post))
    (c : Cut h pre post p a b q) : l.prev x = a ∧ l.next x = b ∧ l.next a = x ∧ l.prev b = x := by
  rw [Ring, show h :: (pre ++ x :: post ++ [h]) = p ++ [a] ++ x :: b :: q by
    simpa using c.whole [x]] at ring
  obtain ⟨_, behind, hn, hp⟩ := split ring
  obtain ⟨⟨hn', hp'⟩, _⟩ := linked_cons.1 behind
  exact ⟨hp, hn', hn, hp'⟩

/-- On a ring the two links undo each other. -/
theorem ring_inverse (ring : l.Ring h ns) (hx : x ∈ h :: ns) :
    l.prev (l.next x) = x ∧ l.next (l.prev x) = x := by
  rcases List.mem_cons.1 hx with rfl | hx
  · obtain ⟨p, a, b, q, c⟩ := exists_cut x [] ns
    obtain ⟨p', a', b', q', c'⟩ := exists_cut x ns []
    obtain rfl : x = a := by simpa using congrArg List.getLast? c.front
    obtain rfl : x = b' := by simpa using congrArg List.head? c'.back
    have before : l.Ring x ([] ++ ns) := ring
    have behind : l.Ring x (ns ++ []) := by simpa using ring
    obtain ⟨hn, hp⟩ := ring_at before c
    obtain ⟨hn', hp'⟩ := ring_at behind c'
    exact ⟨by rw [hn, hp], by rw [hp', hn']⟩
  · obtain ⟨pre, post, rfl⟩ := List.append_of_mem hx
    obtain ⟨p, a, b, q, c⟩ := exists_cut h pre post
    obtain ⟨hp, hn, hn', hp'⟩ := ring_node ring c
    exact ⟨by rw [hn, hp'], by rw [hp, hn']⟩

theorem ring_nil : l.Ring h [] ↔ l.next h = h ∧ l.prev h = h := by
  rw [Ring, List.nil_append, linked_cons]
  exact and_iff_left linked_single

theorem ring_first (ring : l.Ring h (x :: ns)) : l.next h = x := (linked_cons.1 ring).1.1

theorem ring_last (ring : l.Ring h (ns ++ [x])) : l.prev h = x := by
  have linked : l.Linked (h :: ns ++ [x] ++ h :: []) := by simpa [Ring] using ring
  exact (split linked).2.2.2

theorem ring_segment (ring : l.Ring h ns) : l.Linked ns :=
  List.IsChain.left_of_append (List.IsChain.tail ring)

/-- Following `step` from `pos` until the head `h`. -/
def walk [DecidableEq α] (step : α → α) (h : α) : Nat → α → Option (List α)
  | 0, _ => none
  | fuel + 1, pos =>
    if pos = h then some []
    else (walk step h fuel (step pos)).map (pos :: ·)

/-- A walk along a chain that meets the head at its end only. -/
theorem walk_chain [DecidableEq α] {step : α → α} {fuel : Nat}
    (chain : (x :: (ns ++ [h])).IsChain fun x y => step x = y) (apart : h ∉ ns)
    (enough : ns.length < fuel) : walk step h fuel (step x) = some ns := by
  induction ns generalizing x fuel with
  | nil =>
    obtain ⟨fuel, rfl⟩ := Nat.exists_eq_succ_of_ne_zero (Nat.ne_of_gt enough)
    have last : step x = h := (List.isChain_cons_cons.1 chain).1
    rw [walk, if_pos last]
  | cons n ns ih =>
    obtain ⟨fuel, rfl⟩ := Nat.exists_eq_succ_of_ne_zero (show fuel ≠ 0 by omega)
    obtain ⟨here, rest⟩ := List.isChain_cons_cons.1 chain
    rw [List.mem_cons, not_or] at apart
    have other : step x ≠ h := by
      rw [here]
      exact Ne.symm apart.1
    rw [walk, if_neg other, here, ih rest apart.2 (Nat.lt_of_succ_lt_succ enough)]
    rfl

/-- Forward from the head of a ring come its nodes in order, backward in reverse. -/
theorem walk_ring [DecidableEq α] (ring : l.Ring h ns) (apart : h ∉ ns) {fuel : Nat}
    (enough : ns.length < fuel) :
    walk l.next h fuel (l.next h) = some ns ∧ walk l.prev h fuel (l.prev h) = some ns.reverse := by
  constructor
  · exact walk_chain (List.IsChain.imp (fun _ _ link => link.1) ring) apart enough
  · have back := List.isChain_reverse.2 (List.IsChain.imp (fun _ _ link => link.2) ring)
    rw [List.reverse_cons, List.reverse_append, List.reverse_singleton] at back
    exact walk_chain (by simpa using back) (by simpa using apart) (by simpa using enough)

end Links

end Lib
