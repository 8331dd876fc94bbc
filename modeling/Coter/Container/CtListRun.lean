import Coter.Container.CtList

/-!
# The intrusive list refines a family of sequences

* `between_refines`, `remove_refines`, `splice_refines`: what the link writes do
  to the rings;
* `step_refines`: one call on a family of disjoint lists;
* `lists_refine_sequences`: whole runs, and what traversal sees after them.
-/

namespace Coter

open Lib Lib.Links

namespace CtList

/-- The lists there are: the nodes of a head, in order. -/
abbrev Family := Addr → Option (List Addr)

variable {l l' : Heap} {f : Family} {h g t x y : Addr} {ns ms pre post : List Addr}

/-- What the links hold: a ring for each list, and no node twice. -/
structure Holds (l : Heap) (f : Family) : Prop where
  ring : ∀ h ns, f h = some ns → l.Ring h ns
  nodup : ∀ h ns, f h = some ns → (h :: ns).Nodup
  apart : ∀ h ns g ms, f h = some ns → f g = some ms → h ≠ g → ∀ x ∈ h :: ns, x ∉ g :: ms

/-- A node that is on no list and no head. -/
def Free (f : Family) (x : Addr) : Prop := ∀ h ns, f h = some ns → x ∉ h :: ns

def insertBefore (t x : Addr) : List Addr → List Addr
  | [] => []
  | y :: ys => if y = t then x :: y :: ys else y :: insertBefore t x ys

def insertAfter (t x : Addr) : List Addr → List Addr
  | [] => []
  | y :: ys => if y = t then y :: x :: ys else y :: insertAfter t x ys

/-- The lists `h` and `g` after the nodes of `g` went to `h`. -/
def moved (f : Family) (h g : Addr) (ns : List Addr) : Family :=
  fun k => if k = h then some ns else if k = g then some [] else f k

namespace Op

/-- What the caller has to see to. -/
def Allowed (f : Family) : Op → Prop
  | .init self => ∀ h ns, f h = some ns → self ∉ ns
  | .append self node | .prepend self node => (f self).isSome ∧ Free f node
  | .before target node | .after target node =>
    (∃ h ns, f h = some ns ∧ target ∈ h :: ns) ∧ Free f node
  | .remove node => ∃ h ns, f h = some ns ∧ node ∈ ns
  | .splicePrev self list | .spliceNext self list =>
    (f self).isSome ∧ (f list).isSome ∧ self ≠ list

/-- The call on the sequences. -/
def apply (f : Family) : Op → Family
  | .init self => Function.update f self (some [])
  | .append self node => Function.update f self ((f self).map (· ++ [node]))
  | .prepend self node => Function.update f self ((f self).map (node :: ·))
  | .before target node => fun h => (f h).map fun ns =>
      if target = h then ns ++ [node] else insertBefore target node ns
  | .after target node => fun h => (f h).map fun ns =>
      if target = h then node :: ns else insertAfter target node ns
  | .remove node => fun h => (f h).map (·.erase node)
  | .splicePrev self list => moved f self list ((f list).getD [] ++ (f self).getD [])
  | .spliceNext self list => moved f self list ((f self).getD [] ++ (f list).getD [])

end Op

/-! ## The rings -/

/-- All the insertions: `x` goes between `a` and `b`. -/
def between (l : Heap) (a x b : Addr) : Heap :=
  (((l.setPrev x a).setNext x b).setNext a x).setPrev b x

theorem between_next (a b : Addr) :
    (between l a x b).next y = if y = a then x else if y = x then b else l.next y := by
  simp only [between, setPrev_next, setNext_next]

theorem between_prev (a b : Addr) :
    (between l a x b).prev y = if y = b then x else if y = x then a else l.prev y := by
  simp only [between, setNext_prev, setPrev_prev]

/-- The family with the list of `h` replaced. -/
theorem holds_update (hl : Holds l f) (ring : l'.Ring h ms) (nodup : (h :: ms).Nodup)
    (fresh : ∀ g gs, f g = some gs → g ≠ h → ∀ y ∈ h :: ms, y ∉ g :: gs)
    (others : ∀ g gs, f g = some gs → g ≠ h → ∀ y ∈ g :: gs,
      l'.next y = l.next y ∧ l'.prev y = l.prev y) :
    Holds l' (Function.update f h (some ms)) := by
  have frame (g : Addr) (gs : List Addr) (hg : f g = some gs) (hgh : g ≠ h) : l'.Ring g gs := by
    apply keep (hl.ring g gs hg)
    · intro y hy
      rw [← List.cons_append, List.dropLast_concat] at hy
      exact (others g gs hg hgh y hy).1
    · intro y hy
      rw [List.tail_cons] at hy
      exact (others g gs hg hgh y (by simp at hy ⊢; tauto)).2
  constructor
  · intro g gs hg
    by_cases hgh : g = h
    · subst hgh
      rw [Function.update_self, Option.some.injEq] at hg
      exact hg ▸ ring
    · rw [Function.update_of_ne hgh] at hg
      exact frame g gs hg hgh
  · intro g gs hg
    by_cases hgh : g = h
    · subst hgh
      rw [Function.update_self, Option.some.injEq] at hg
      exact hg ▸ nodup
    · rw [Function.update_of_ne hgh] at hg
      exact hl.nodup g gs hg
  · intro k ks g gs hk hg hkg y hy
    by_cases hkh : k = h
    · subst hkh
      rw [Function.update_self, Option.some.injEq] at hk
      rw [Function.update_of_ne (Ne.symm hkg)] at hg
      subst hk
      exact fresh g gs hg (Ne.symm hkg) y hy
    · rw [Function.update_of_ne hkh] at hk
      by_cases hgh : g = h
      · subst hgh
        rw [Function.update_self, Option.some.injEq] at hg
        subst hg
        exact fun hy' => fresh k ks hk hkh y hy' hy
      · rw [Function.update_of_ne hgh] at hg
        exact hl.apart k ks g gs hk hg hkg y hy

/-- The nodes of a list that was there, and free ones, are on no other list. -/
theorem fresh_of_mem (hl : Holds l f) (hf : f h = some ns)
    (mem : ∀ y ∈ ms, y ∈ ns ∨ Free f y) :
    ∀ g gs, f g = some gs → g ≠ h → ∀ y ∈ h :: ms, y ∉ g :: gs := by
  intro g gs hg hgh y hy
  rcases List.mem_cons.1 hy with rfl | hy
  · exact hl.apart y ns g gs hf hg (Ne.symm hgh) y (List.mem_cons_self ..)
  · rcases mem y hy with old | free
    · exact hl.apart h ns g gs hf hg (Ne.symm hgh) y (List.mem_cons_of_mem h old)
    · exact free g gs hg

/-- A node of another list is not on this one. -/
theorem ne_of_mem (hl : Holds l f) (hf : f h = some ns) {gs : List Addr} (hg : f g = some gs)
    (hgh : g ≠ h) (hy : y ∈ g :: gs) {z : Addr} (hz : z ∈ h :: ns) : y ≠ z := by
  rintro rfl
  exact hl.apart g gs h ns hg hf hgh y hy hz

theorem init_next : (init l h).next y = if y = h then h else l.next y := setNext_next ..

theorem init_prev : (init l h).prev y = if y = h then h else l.prev y := setPrev_prev ..

/-- `ct_list_init` makes an empty list; the nodes of an old one are free. -/
theorem init_refines (hl : Holds l f) (out : ∀ g gs, f g = some gs → h ∉ gs) :
    Holds (init l h) (Function.update f h (some [])) := by
  have other (g : Addr) (gs : List Addr) (hg : f g = some gs) (hgh : g ≠ h) : h ∉ g :: gs := by
    rw [List.mem_cons, not_or]
    exact ⟨Ne.symm hgh, out g gs hg⟩
  apply holds_update hl
  · rw [ring_nil, init_next, init_prev, if_pos rfl, if_pos rfl]
    exact ⟨rfl, rfl⟩
  · exact List.nodup_singleton h
  · intro g gs hg hgh y hy
    rw [List.mem_singleton.1 hy]
    exact other g gs hg hgh
  · intro g gs hg hgh y hy
    have ne : y ≠ h := by
      rintro rfl
      exact other g gs hg hgh hy
    rw [init_next, init_prev, if_neg ne, if_neg ne]
    exact ⟨rfl, rfl⟩

/-- An insertion at a cut of a list. -/
theorem between_refines (hl : Holds l f) (hf : f h = some (pre ++ post)) (free : Free f x)
    {p q : List Addr} {a b : Addr} (c : Cut h pre post p a b q) :
    Holds (between l a x b) (Function.update f h (some (pre ++ [x] ++ post))) := by
  have nodup := hl.nodup h _ hf
  have fresh : x ∉ h :: (pre ++ post) := free h _ hf
  obtain ⟨amem, bmem, _, _⟩ := c.mem_ends
  apply holds_update hl
  · have first : [x] = x :: [] := rfl
    have last : [x] = [] ++ [x] := rfl
    apply ring_insert (hl.ring h _ hf) nodup c first last linked_single (List.nodup_singleton x)
    · intro y hy
      rwa [List.mem_singleton.1 hy]
    · intro y _
      exact between_next a b
    · intro y _
      exact between_prev a b
  · have perm : (h :: (pre ++ [x] ++ post)).Perm (x :: h :: (pre ++ post)) := by
      rw [List.append_assoc]
      exact (List.perm_middle.cons h).trans (List.Perm.swap ..)
    exact perm.nodup_iff.2 (List.nodup_cons.2 ⟨fresh, nodup⟩)
  · apply fresh_of_mem hl hf
    intro y hy
    simp only [List.mem_append, List.mem_singleton] at hy ⊢
    rcases hy with (hy | rfl) | hy
    · exact Or.inl (Or.inl hy)
    · exact Or.inr free
    · exact Or.inl (Or.inr hy)
  · intro g gs hg hgh y hy
    have ya := ne_of_mem hl hf hg hgh hy amem
    have yb := ne_of_mem hl hf hg hgh hy bmem
    have yx : y ≠ x := by
      rintro rfl
      exact free g gs hg hy
    rw [between_next, between_prev, if_neg ya, if_neg yb, if_neg yx, if_neg yx]
    exact ⟨rfl, rfl⟩

/-- Taking out the node at a cut. -/
theorem remove_refines (hl : Holds l f) (hf : f h = some (pre ++ x :: post)) :
    Holds (remove l x) (Function.update f h (some (pre ++ post))) := by
  have nodup := hl.nodup h _ hf
  obtain ⟨p, a, b, q, c⟩ := exists_cut h pre post
  obtain ⟨amem, bmem, _, _⟩ := c.mem_ends
  have part (y : Addr) (hy : y ∈ h :: (pre ++ post)) : y ∈ h :: (pre ++ x :: post) := by
    simp only [List.mem_cons, List.mem_append] at hy ⊢
    tauto
  obtain ⟨prevx, nextx, _, _⟩ := ring_node (hl.ring h _ hf) c
  have moved : (h :: pre ++ x :: post).Perm (x :: (h :: pre ++ post)) := List.perm_middle
  have out : x ∉ h :: (pre ++ post) := (List.nodup_cons.1 (moved.nodup_iff.1 nodup)).1
  have ax : x ≠ a := fun e => out (e ▸ amem)
  have next (y : Addr) : (remove l x).next y = if y = a then b else l.next y := by
    rw [remove, setPrev_next, setNext_next, prevx, nextx]
  have prev (y : Addr) : (remove l x).prev y = if y = b then a else l.prev y := by
    rw [remove, setPrev_prev, setNext_prev, setNext_next, prevx, nextx, if_neg ax]
  apply holds_update hl
  · apply ring_remove (hl.ring h _ hf) nodup c
    · exact fun y _ => next y
    · exact fun y _ => prev y
  · exact nodup.sublist
      ((List.Sublist.append_left (List.sublist_cons_self x post) pre).cons_cons h)
  · apply fresh_of_mem hl hf
    intro y hy
    simp only [List.mem_append, List.mem_cons] at hy ⊢
    tauto
  · intro g gs hg hgh y hy
    have ya := ne_of_mem hl hf hg hgh hy (part a amem)
    have yb := ne_of_mem hl hf hg hgh hy (part b bmem)
    rw [next, prev, if_neg ya, if_neg yb]
    exact ⟨rfl, rfl⟩

theorem moved_update (r : List Addr) :
    moved f h g r = Function.update (Function.update f g (some [])) h (some r) := by
  funext k
  simp only [moved, Function.update_apply]

/-- The nodes of `g` spliced into `h` at a cut, and `g` left empty. -/
theorem splice_refines (hl : Holds l f) (hf : f h = some (pre ++ post)) (hg : f g = some ms)
    (hgh : h ≠ g) {p q fs zs : List Addr} {a b u z : Addr} (c : Cut h pre post p a b q)
    (hu : ms = u :: fs) (hz : ms = zs ++ [z])
    (next : ∀ y, l'.next y =
      if y = g then g else if y = a then u else if y = z then b else l.next y)
    (prev : ∀ y, l'.prev y =
      if y = g then g else if y = b then z else if y = u then a else l.prev y) :
    Holds l' (moved f h g (pre ++ ms ++ post)) := by
  have nodup := hl.nodup h _ hf
  obtain ⟨head, inner⟩ := List.nodup_cons.1 (hl.nodup g _ hg)
  obtain ⟨amem, bmem, _, _⟩ := c.mem_ends
  have apart (y : Addr) (hy : y ∈ g :: ms) : y ∉ h :: (pre ++ post) :=
    hl.apart g ms h _ hg hf (Ne.symm hgh) y hy
  -- the source is emptied first: its nodes are free then
  have emptied : Holds (init l g) (Function.update f g (some [])) := by
    apply init_refines hl
    intro k ks hk
    by_cases hkg : k = g
    · subst hkg
      rw [hg, Option.some.injEq] at hk
      exact hk ▸ head
    · exact fun hy => hl.apart k ks g ms hk hg hkg g (List.mem_cons_of_mem k hy)
        (List.mem_cons_self ..)
  have hf' : Function.update f g (some []) h = some (pre ++ post) := by
    rw [Function.update_of_ne hgh, hf]
  have free (y : Addr) (hy : y ∈ ms) : Free (Function.update f g (some [])) y := by
    intro k ks hk
    by_cases hkg : k = g
    · subst hkg
      rw [Function.update_self, Option.some.injEq] at hk
      rw [← hk, List.mem_singleton]
      rintro rfl
      exact head hy
    · rw [Function.update_of_ne hkg] at hk
      exact hl.apart g ms k ks hg hk (Ne.symm hkg) y (List.mem_cons_of_mem g hy)
  have segment : (init l g).Linked ms := by
    apply keep (ring_segment (hl.ring g ms hg))
    · intro y hy
      rw [init_next, if_neg]
      rintro rfl
      exact head (List.dropLast_subset ms hy)
    · intro y hy
      rw [init_prev, if_neg]
      rintro rfl
      exact head (List.mem_of_mem_tail hy)
  have next' (y : Addr) : l'.next y = if y = g then g else
      if y = a then u else if y = z then b else (init l g).next y := by
    rw [next, init_next]
    split <;> rfl
  have prev' (y : Addr) : l'.prev y = if y = g then g else
      if y = b then z else if y = u then a else (init l g).prev y := by
    rw [prev, init_prev]
    split <;> rfl
  have source (y : Addr) (hy : y ∈ h :: (pre ++ ms ++ post)) : y ≠ g := by
    rintro rfl
    simp only [List.mem_cons, List.mem_append] at hy
    have := apart y (List.mem_cons_self ..)
    simp only [List.mem_cons, List.mem_append] at this
    tauto
  rw [moved_update]
  apply holds_update emptied
  · apply ring_insert (emptied.ring h _ hf') nodup c hu hz segment inner
    · exact fun y hy => apart y (List.mem_cons_of_mem g hy)
    · intro y hy
      rw [next', if_neg (source y hy)]
    · intro y hy
      rw [prev', if_neg (source y hy)]
  · have perm : (h :: (pre ++ ms ++ post)).Perm (ms ++ h :: (pre ++ post)) := by
      rw [List.append_assoc]
      exact ((List.perm_append_comm_assoc pre ms post).cons h).trans List.perm_middle.symm
    rw [perm.nodup_iff, List.nodup_append]
    refine ⟨inner, nodup, ?_⟩
    rintro y hy z hz rfl
    exact apart y (List.mem_cons_of_mem g hy) hz
  · apply fresh_of_mem emptied hf'
    intro y hy
    simp only [List.mem_append] at hy ⊢
    rcases hy with (hy | hy) | hy
    · exact Or.inl (Or.inl hy)
    · exact Or.inr (free y hy)
    · exact Or.inl (Or.inr hy)
  · intro k ks hk hkh y hy
    have ya := ne_of_mem emptied hf' hk hkh hy amem
    have yb := ne_of_mem emptied hf' hk hkh hy bmem
    have ys (z : Addr) (hz : z ∈ ms) : y ≠ z := by
      rintro rfl
      exact free y hz k ks hk hy
    have yz := ys z (by simp [hz])
    have yu := ys u (by simp [hu])
    rw [next', prev', if_neg ya, if_neg yb, if_neg yz, if_neg yu, init_next, init_prev]
    by_cases hyg : y = g
    · simp [hyg]
    · simp [hyg]

/-! ## The calls -/

theorem append_eq (hx : h ≠ x) : append l h x = between l (l.prev h) x h := by
  simp only [append, between, setNext_prev, setPrev_prev, if_neg hx]

theorem prepend_eq (hx : h ≠ x) : prepend l h x = between l h x (l.next h) := by
  simp only [prepend, between, setNext_next, setPrev_next, if_neg hx]
  rfl

theorem before_eq (hx : t ≠ x) : before l t x = between l (l.prev t) x t := append_eq hx

theorem after_eq (hx : t ≠ x) : after l t x = between l t x (l.next t) := prepend_eq hx

theorem insertBefore_split (ht : t ∉ pre) :
    insertBefore t x (pre ++ t :: post) = pre ++ [x] ++ t :: post := by
  induction pre with
  | nil => simp [insertBefore]
  | cons y pre ih =>
    rw [List.mem_cons, not_or] at ht
    simp only [List.cons_append, insertBefore, if_neg (Ne.symm ht.1), ih ht.2]

theorem insertAfter_split (ht : t ∉ pre) :
    insertAfter t x (pre ++ t :: post) = pre ++ [t] ++ [x] ++ post := by
  induction pre with
  | nil => simp [insertAfter]
  | cons y pre ih =>
    rw [List.mem_cons, not_or] at ht
    simp only [List.cons_append, insertAfter, if_neg (Ne.symm ht.1), ih ht.2]

theorem insertBefore_none (ht : t ∉ ns) : insertBefore t x ns = ns := by
  induction ns with
  | nil => rfl
  | cons y ns ih =>
    rw [List.mem_cons, not_or] at ht
    rw [insertBefore, if_neg (Ne.symm ht.1), ih ht.2]

theorem insertAfter_none (ht : t ∉ ns) : insertAfter t x ns = ns := by
  induction ns with
  | nil => rfl
  | cons y ns ih =>
    rw [List.mem_cons, not_or] at ht
    rw [insertAfter, if_neg (Ne.symm ht.1), ih ht.2]

/-- An edit of all lists that changes only one. -/
theorem edit_at {F : Addr → List Addr → List Addr} (hf : f h = some ns)
    (others : ∀ g gs, f g = some gs → g ≠ h → F g gs = gs) :
    (fun k => (f k).map (F k)) = Function.update f h (some (F h ns)) := by
  funext k
  by_cases hkh : k = h
  · subst hkh
    rw [Function.update_self, hf, Option.map_some]
  · rw [Function.update_of_ne hkh]
    cases hk : f k with
    | none => rfl
    | some ks => rw [Option.map_some, others k ks hk hkh]

theorem append_refines (hl : Holds l f) (hf : f h = some ns) (free : Free f x) :
    Holds (append l h x) (Function.update f h (some (ns ++ [x]))) := by
  have hx : h ≠ x := fun e => free h ns hf (e ▸ List.mem_cons_self ..)
  obtain ⟨p, a, b, q, c⟩ := exists_cut h ns []
  obtain rfl : h = b := by simpa using congrArg List.head? c.back
  have hf' : f h = some (ns ++ []) := by rw [List.append_nil, hf]
  rw [append_eq hx, (ring_at (hl.ring h _ hf') c).2]
  simpa using between_refines hl hf' free c

theorem prepend_refines (hl : Holds l f) (hf : f h = some ns) (free : Free f x) :
    Holds (prepend l h x) (Function.update f h (some (x :: ns))) := by
  have hx : h ≠ x := fun e => free h ns hf (e ▸ List.mem_cons_self ..)
  obtain ⟨p, a, b, q, c⟩ := exists_cut h [] ns
  obtain rfl : h = a := by simpa using congrArg List.getLast? c.front
  have hf' : f h = some ([] ++ ns) := hf
  rw [prepend_eq hx, (ring_at (hl.ring h _ hf') c).1]
  exact between_refines hl hf' free c

/-- The family after an insertion next to `t`, which is on the list `h`. -/
theorem edit_next_to {F R : List Addr → List Addr} (hl : Holds l f) (hf : f h = some ns)
    (ht : t ∈ h :: ns) (none : ∀ gs, t ∉ gs → F gs = gs) :
    (fun k => (f k).map fun gs => if t = k then R gs else F gs) =
      Function.update f h (some (if t = h then R ns else F ns)) := by
  apply edit_at (F := fun k gs => if t = k then R gs else F gs) hf
  intro g gs hg hgh
  have out : t ∉ g :: gs := hl.apart h ns g gs hf hg (Ne.symm hgh) t ht
  rw [List.mem_cons, not_or] at out
  rw [if_neg out.1, none gs out.2]

theorem before_refines (hl : Holds l f) (hf : f h = some ns) (ht : t ∈ h :: ns) (free : Free f x) :
    Holds (before l t x) (Op.apply f (.before t x)) := by
  have tx : t ≠ x := fun e => free h ns hf (e ▸ ht)
  rw [Op.apply, edit_next_to hl hf ht fun gs => insertBefore_none]
  by_cases hth : t = h
  · rw [if_pos hth, hth]
    exact append_refines hl hf free
  · obtain ⟨pre, post, rfl⟩ := List.append_of_mem ((List.mem_cons.1 ht).resolve_left hth)
    obtain ⟨p, a, b, q, c⟩ := exists_cut h pre (t :: post)
    obtain rfl : t = b := by simpa using congrArg List.head? c.back
    have first : t ∉ pre := (c.apart (hl.nodup h _ hf)).2.2.1
    rw [if_neg hth, insertBefore_split first, before_eq tx, (ring_at (hl.ring h _ hf) c).2]
    exact between_refines hl hf free c

theorem after_refines (hl : Holds l f) (hf : f h = some ns) (ht : t ∈ h :: ns) (free : Free f x) :
    Holds (after l t x) (Op.apply f (.after t x)) := by
  have tx : t ≠ x := fun e => free h ns hf (e ▸ ht)
  rw [Op.apply, edit_next_to hl hf ht fun gs => insertAfter_none]
  by_cases hth : t = h
  · rw [if_pos hth, hth]
    exact prepend_refines hl hf free
  · obtain ⟨pre, post, rfl⟩ := List.append_of_mem ((List.mem_cons.1 ht).resolve_left hth)
    obtain ⟨p, a, b, q, c⟩ := exists_cut h (pre ++ [t]) post
    obtain rfl : t = a := by
      have last := congrArg List.getLast? c.front
      rwa [← List.cons_append, List.getLast?_concat, List.getLast?_concat, Option.some.injEq] at last
    have hf' : f h = some (pre ++ [t] ++ post) := by rw [hf, List.append_assoc]; rfl
    have first : t ∉ pre := by
      have nodup := (hl.nodup h _ hf').of_cons
      intro hpre
      exact (List.nodup_append.1 (List.nodup_append.1 nodup).1).2.2 t hpre t (by simp) rfl
    rw [if_neg hth, insertAfter_split first, after_eq tx, (ring_at (hl.ring h _ hf') c).1]
    exact between_refines hl hf' free c

theorem remove_step (hl : Holds l f) (hf : f h = some ns) (hx : x ∈ ns) :
    Holds (remove l x) (Op.apply f (.remove x)) := by
  obtain ⟨pre, post, rfl⟩ := List.append_of_mem hx
  have nodup := (hl.nodup h _ hf).of_cons
  have first : x ∉ pre := fun hpre =>
    (List.nodup_append.1 nodup).2.2 x hpre x (List.mem_cons_self ..) rfl
  have erased : (pre ++ x :: post).erase x = pre ++ post := by
    rw [List.erase_append_right _ first, List.erase_cons_head]
  have edit := edit_at (F := fun _ gs => gs.erase x) hf fun g gs hg hgh => by
    apply List.erase_of_not_mem
    intro hgs
    exact hl.apart h _ g gs hf hg (Ne.symm hgh) x (List.mem_cons_of_mem h hx)
      (List.mem_cons_of_mem g hgs)
  rw [Op.apply, edit, erased]
  exact remove_refines hl hf

/-- A list is empty when its head points to itself. -/
theorem next_head (hl : Holds l f) (hg : f g = some ms) : l.next g = g ↔ ms = [] := by
  have ring := hl.ring g ms hg
  constructor
  · intro same
    cases ms with
    | nil => rfl
    | cons m ms =>
      rw [ring_first ring] at same
      exact absurd (same ▸ List.mem_cons_self ..) (List.nodup_cons.1 (hl.nodup g _ hg)).1
  · rintro rfl
    exact (ring_nil.1 ring).1

theorem moved_nothing (hf : f h = some ns) (hg : f g = some []) : moved f h g ns = f := by
  funext k
  unfold moved
  split
  · next hk => rw [hk, hf]
  · split
    · next hk => rw [hk, hg]
    · rfl

/-- The ends of a list that is not empty: they are on no other list, nor its head. -/
theorem list_ends (hl : Holds l f) (hg : f g = some ms) (empty : ms ≠ []) :
    ∃ u fs zs z, ms = u :: fs ∧ ms = zs ++ [z] ∧ l.next g = u ∧ l.prev g = z ∧ g ≠ u ∧ g ≠ z ∧
      ∀ h ns, f h = some ns → h ≠ g → ∀ y ∈ h :: ns, y ≠ u ∧ y ≠ z := by
  obtain ⟨u, fs, hu⟩ := List.exists_cons_of_ne_nil empty
  obtain ⟨zs, z, hz⟩ : ∃ zs z, ms = zs ++ [z] := ⟨_, _, (List.dropLast_append_getLast empty).symm⟩
  have head := (List.nodup_cons.1 (hl.nodup g _ hg)).1
  have first : u ∈ ms := by simp [hu]
  have last : z ∈ ms := by simp [hz]
  refine ⟨u, fs, zs, z, hu, hz, ring_first (hu ▸ hl.ring g ms hg),
    ring_last (hz ▸ hl.ring g ms hg), ?_, ?_, ?_⟩
  · rintro rfl
    exact head first
  · rintro rfl
    exact head last
  · intro h ns hf hgh y hy
    have apart (x : Addr) (hx : x ∈ ms) : x ∉ h :: ns :=
      hl.apart g ms h _ hg hf (Ne.symm hgh) x (List.mem_cons_of_mem g hx)
    constructor
    · rintro rfl
      exact apart y first hy
    · rintro rfl
      exact apart y last hy

theorem splicePrev_refines (hl : Holds l f) (hf : f h = some ns) (hg : f g = some ms)
    (hgh : h ≠ g) : Holds (splicePrev l h g) (moved f h g (ms ++ ns)) := by
  by_cases empty : ms = []
  · subst empty
    rw [splicePrev, if_pos ((next_head hl hg).2 rfl), List.nil_append, moved_nothing hf hg]
    exact hl
  · have filled := mt (next_head hl hg).1 empty
    obtain ⟨u, fs, zs, z, hu, hz, first, last, -, gz, apart⟩ := list_ends hl hg empty
    obtain ⟨p, a, b, q, c⟩ := exists_cut h [] ns
    obtain rfl : h = a := by simpa using congrArg List.getLast? c.front
    have hf' : f h = some ([] ++ ns) := hf
    have hb : l.next h = b := (ring_at (hl.ring h _ hf') c).1
    have hzh : h ≠ z := (apart h ns hf hgh h (List.mem_cons_self ..)).2
    have ub : b ≠ u := (apart h ns hf hgh b c.mem_ends.2.1).1
    have written : splicePrev l h g =
        init ((((l.setNext z b).setPrev b z).setPrev u h).setNext h u) g := by
      rw [splicePrev, if_neg filled]
      simp only [setNext_next, setNext_prev, setPrev_next, last, hb, first, if_neg hzh, if_neg gz]
    refine splice_refines hl hf' hg hgh c hu hz ?_ ?_
    · intro y
      rw [written, init_next]
      simp only [setNext_next, setPrev_next]
    · intro y
      rw [written, init_prev]
      simp only [setNext_prev, setPrev_prev]
      by_cases yb : y = b
      · simp [yb, ub]
      · simp [yb]

theorem spliceNext_refines (hl : Holds l f) (hf : f h = some ns) (hg : f g = some ms)
    (hgh : h ≠ g) : Holds (spliceNext l h g) (moved f h g (ns ++ ms)) := by
  by_cases empty : ms = []
  · subst empty
    rw [spliceNext, if_pos ((next_head hl hg).2 rfl), List.append_nil, moved_nothing hf hg]
    exact hl
  · have filled := mt (next_head hl hg).1 empty
    obtain ⟨u, fs, zs, z, hu, hz, first, last, gu, -, apart⟩ := list_ends hl hg empty
    obtain ⟨p, a, b, q, c⟩ := exists_cut h ns []
    obtain rfl : h = b := by simpa using congrArg List.head? c.back
    have hf' : f h = some (ns ++ []) := by rw [List.append_nil, hf]
    have amem : a ∈ h :: ns := by simpa using c.mem_ends.1
    have ha : l.prev h = a := (ring_at (hl.ring h _ hf') c).2
    have hhu : h ≠ u := (apart h ns hf hgh h (List.mem_cons_self ..)).1
    have az : a ≠ z := (apart h ns hf hgh a amem).2
    have written : spliceNext l h g =
        init ((((l.setPrev u a).setNext a u).setNext z h).setPrev h z) g := by
      rw [spliceNext, if_neg filled]
      simp only [setNext_prev, setPrev_next, setPrev_prev, last, ha, first, if_neg hhu, if_neg gu]
    have spliced : Holds (spliceNext l h g) (moved f h g (ns ++ ms ++ [])) := by
      refine splice_refines hl hf' hg hgh c hu hz ?_ ?_
      · intro y
        rw [written, init_next]
        simp only [setNext_next, setPrev_next]
        by_cases ya : y = a
        · simp [ya, az]
        · simp [ya]
      · intro y
        rw [written, init_prev]
        simp only [setNext_prev, setPrev_prev]
    rwa [List.append_nil] at spliced

/-- Every call takes the links from one family to the next. -/
theorem step_refines (hl : Holds l f) (op : Op) (allowed : op.Allowed f) :
    Holds (step l op) (op.apply f) := by
  cases op with
  | init self => exact init_refines hl allowed
  | append self node =>
    obtain ⟨ns, hf⟩ := Option.isSome_iff_exists.1 allowed.1
    rw [Op.apply, hf]
    exact append_refines hl hf allowed.2
  | prepend self node =>
    obtain ⟨ns, hf⟩ := Option.isSome_iff_exists.1 allowed.1
    rw [Op.apply, hf]
    exact prepend_refines hl hf allowed.2
  | before target node =>
    obtain ⟨⟨h, ns, hf, ht⟩, free⟩ := allowed
    exact before_refines hl hf ht free
  | after target node =>
    obtain ⟨⟨h, ns, hf, ht⟩, free⟩ := allowed
    exact after_refines hl hf ht free
  | remove node =>
    obtain ⟨h, ns, hf, hx⟩ := allowed
    exact remove_step hl hf hx
  | splicePrev self list =>
    obtain ⟨hself, hlist, apart⟩ := allowed
    obtain ⟨ns, hf⟩ := Option.isSome_iff_exists.1 hself
    obtain ⟨ms, hg⟩ := Option.isSome_iff_exists.1 hlist
    rw [Op.apply, hf, hg]
    exact splicePrev_refines hl hf hg apart
  | spliceNext self list =>
    obtain ⟨hself, hlist, apart⟩ := allowed
    obtain ⟨ns, hf⟩ := Option.isSome_iff_exists.1 hself
    obtain ⟨ms, hg⟩ := Option.isSome_iff_exists.1 hlist
    rw [Op.apply, hf, hg]
    exact spliceNext_refines hl hf hg apart

/-! ## Runs -/

/-- The links after the calls `ops`. -/
def run (l : Heap) (ops : List Op) : Heap := ops.foldl step l

/-- The sequences after the calls `ops`. -/
def applyAll (f : Family) (ops : List Op) : Family := ops.foldl Op.apply f

/-- The caller sees to what every call of the run asks for. -/
def AllAllowed : Family → List Op → Prop
  | _, [] => True
  | f, op :: ops => op.Allowed f ∧ AllAllowed (op.apply f) ops

theorem run_refines (hl : Holds l f) {ops : List Op} (allowed : AllAllowed f ops) :
    Holds (run l ops) (applyAll f ops) := by
  induction ops generalizing l f with
  | nil => exact hl
  | cons op ops ih => exact ih (step_refines hl op allowed.1) allowed.2

/-- What a traversal sees of the list of head `h` with the nodes `ns`. -/
structure Seen (l : Heap) (h : Addr) (ns : List Addr) : Prop where
  inverse : ∀ x ∈ h :: ns, l.prev (l.next x) = x ∧ l.next (l.prev x) = x
  forward : ∀ fuel, ns.length < fuel → walk l.next h fuel (l.next h) = some ns
  backward : ∀ fuel, ns.length < fuel → walk l.prev h fuel (l.prev h) = some ns.reverse
  size : ∀ fuel, ns.length < fuel → size l fuel h = some ns.length

/-- There are fewer nodes than `size_t` counts. -/
theorem length_lt (nodup : (h :: ns).Nodup) : ns.length < 2 ^ 64 := by
  have bound := List.Nodup.length_le_card nodup
  rw [Fintype.card_fin, List.length_cons] at bound
  omega

theorem sizeLoop_walk {fuel : Nat} (hw : walk l.next h fuel x = some ns) {n : Nat}
    (bound : n + ns.length < 2 ^ 64) : sizeLoop l h fuel x n = some (n + ns.length) := by
  induction fuel generalizing x ns n with
  | zero => simp [walk] at hw
  | succ fuel ih =>
    rw [walk] at hw
    rw [sizeLoop]
    by_cases hx : x = h
    · rw [if_pos hx, Option.some.injEq] at hw
      rw [if_pos hx, ← hw, List.length_nil, Nat.add_zero]
    · rw [if_neg hx] at hw
      rw [if_neg hx]
      obtain ⟨ms, hms, rfl⟩ := Option.map_eq_some_iff.1 hw
      rw [List.length_cons] at bound ⊢
      rw [usize_of_lt (by omega), ih hms (by omega)]
      congr 1
      omega

theorem seen_of_holds (hl : Holds l f) (hf : f h = some ns) : Seen l h ns := by
  have ring := hl.ring h ns hf
  have nodup := hl.nodup h ns hf
  have apart := (List.nodup_cons.1 nodup).1
  refine ⟨fun x hx => ring_inverse ring hx, fun fuel enough => (walk_ring ring apart enough).1,
    fun fuel enough => (walk_ring ring apart enough).2, fun fuel enough => ?_⟩
  have bound := length_lt nodup
  have counted := sizeLoop_walk (walk_ring ring apart enough).1 (n := 0) (by omega)
  rwa [Nat.zero_add] at counted

/-- From whatever links, a run of allowed calls makes the rings of exactly the
sequences that the calls describe: no node is on two lists, and every traversal
sees the sequence of its head. -/
theorem lists_refine_sequences (l : Heap) (ops : List Op)
    (allowed : AllAllowed (fun _ => none) ops) :
    Holds (run l ops) (applyAll (fun _ => none) ops) ∧
    ∀ h ns, applyAll (fun _ => none) ops h = some ns → Seen (run l ops) h ns := by
  have start : Holds l fun _ => none := ⟨by simp, by simp, by simp⟩
  have holds := run_refines start allowed
  exact ⟨holds, fun h ns hf => seen_of_holds holds hf⟩

/-- Two lists, one of them moved into the other and taken apart again. -/
theorem lists_refine_sequences_splice :
    Holds (run ⟨fun _ => 0, fun _ => 0⟩ [.init 1, .init 2, .append 2 3, .splicePrev 1 2, .remove 3])
      (applyAll (fun _ => none)
        [.init 1, .init 2, .append 2 3, .splicePrev 1 2, .remove 3]) := by
  have allowed : AllAllowed (fun _ => none)
      [.init 1, .init 2, .append 2 3, .splicePrev 1 2, .remove 3] := by
    refine ⟨?_, ?_, ⟨rfl, ?_⟩, ⟨rfl, rfl, by decide⟩, ⟨1, [3], rfl, by decide⟩, trivial⟩
    · intro h ns hf
      simp at hf
    · intro h ns hf
      simp only [Op.apply, Function.update_apply] at hf
      split at hf
      · simp_all
      · simp at hf
    · intro h ns hf
      simp only [Op.apply, Function.update_apply] at hf
      split at hf
      · simp_all
      · split at hf
        · simp_all
        · simp at hf
  exact (lists_refine_sequences _ _ allowed).1

end CtList

end Coter
