import Coter.Container.CtListRun

/-!
# What the macros of the list tell

`ct_list_first` and its kind beside `ct_list_foreach`, on a ring whose nodes are distinct.

* `observed_links`: the ends of a list, and the neighbours of a node;
* `isFirst_iff`, `isLast_iff`: the node that each test holds for;
* `observers_agree_iff`: the nodes that both tests are right about.
-/

namespace Coter.CtList

open Lib Lib.Links

variable (l : Heap)

/-- `ct_list_first` -/
def first (head : Addr) : Addr := l.next head

/-- `ct_list_last` -/
def last (head : Addr) : Addr := l.prev head

/-- `ct_list_is_first` -/
def isFirst (head node : Addr) : Bool := l.next node = head

/-- `ct_list_is_last` -/
def isLast (head node : Addr) : Bool := l.prev node = head

/-- `ct_list_next` -/
def next (pos : Addr) : Addr := l.next pos

/-- `ct_list_prev` -/
def prev (pos : Addr) : Addr := l.prev pos

/-- The nodes that `ct_list_foreach` visits, in order; `none` where `fuel` turns are not
enough. -/
def foreach (head : Addr) (fuel : Nat) : Option (List Addr) := walk l.next head fuel (l.next head)

/-- The macros about the node `x` agree with a visit in the order `vs`. -/
structure Observed (h : Addr) (vs : List Addr) (x : Addr) : Prop where
  first : vs.head? = some (first l h)
  last : vs.getLast? = some (last l h)
  isFirst : isFirst l h x = true ↔ x = CtList.first l h
  isLast : isLast l h x = true ↔ x = CtList.last l h
  next (pre post : List Addr) : vs = pre ++ x :: post → next l x = post.headD h
  prev (pre post : List Addr) : vs = pre ++ x :: post → prev l x = pre.getLastD h

variable {l} {h x : Addr} {ns pre post : List Addr}

/-- The neighbours of a node, in either direction. -/
theorem neighbours (ring : l.Ring h (pre ++ x :: post)) :
    next l x = post.headD h ∧ prev l x = pre.getLastD h := by
  obtain ⟨p, a, b, q, c⟩ := exists_cut h pre post
  obtain ⟨hp, hn, -, -⟩ := ring_node ring c
  constructor
  · rw [next, hn]
    cases post with
    | nil => simpa using (congrArg List.head? c.back).symm
    | cons y post => simpa using (congrArg List.head? c.back).symm
  · have front := congrArg List.getLast? c.front
    rw [List.getLast?_concat, List.getLast?_cons, Option.some.injEq] at front
    rw [prev, hp, ← front, List.getLastD_eq_getLast?]

theorem ends (ring : l.Ring h ns) (hx : x ∈ ns) :
    ns.head? = some (first l h) ∧ ns.getLast? = some (last l h) := by
  have filled := List.ne_nil_of_mem hx
  constructor
  · obtain ⟨u, us, rfl⟩ := List.exists_cons_of_ne_nil filled
    rw [first, ring_first ring, List.head?_cons]
  · obtain ⟨zs, z, rfl⟩ : ∃ zs z, ns = zs ++ [z] :=
      ⟨_, _, (List.dropLast_append_getLast filled).symm⟩
    rw [last, ring_last ring, List.getLast?_concat]

/-- A node is on no other place of its list, and it is not the head. -/
theorem node_apart (nodup : (h :: (pre ++ x :: post)).Nodup) :
    h ∉ pre ∧ h ∉ post ∧ x ∉ pre ∧ x ∉ post := by
  obtain ⟨head, inner⟩ := List.nodup_cons.1 nodup
  obtain ⟨-, rest, disjoint⟩ := List.nodup_append.1 inner
  rw [List.mem_append, List.mem_cons, not_or, not_or] at head
  exact ⟨head.1, head.2.2, fun hx => disjoint x hx x List.mem_cons_self rfl,
    (List.nodup_cons.1 rest).1⟩

theorem head_iff (hx : x ∉ pre) : (pre ++ x :: post).head? = some x ↔ pre = [] := by
  cases pre with
  | nil => simp
  | cons y pre =>
    have other : y ≠ x := fun same => hx (same ▸ List.mem_cons_self)
    simp [other]

theorem last_iff (hx : x ∉ post) : (pre ++ x :: post).getLast? = some x ↔ post = [] := by
  rcases List.eq_nil_or_concat post with rfl | ⟨post, y, rfl⟩
  · simp
  · have other : y ≠ x := by
      rintro rfl
      exact hx (by simp)
    have shape : pre ++ x :: (post ++ [y]) = (pre ++ x :: post) ++ [y] := by simp
    rw [List.concat_eq_append, shape, List.getLast?_concat]
    simp [other]

/-- The test for the first node holds for the last one. -/
theorem isFirst_iff (ring : l.Ring h (pre ++ x :: post)) (out : h ∉ post) :
    isFirst l h x = true ↔ post = [] := by
  rw [isFirst, decide_eq_true_iff]
  change next l x = h ↔ _
  rw [(neighbours ring).1]
  cases post with
  | nil => simp
  | cons y post =>
    have other : y ≠ h := fun same => out (same ▸ List.mem_cons_self)
    simp [other]

/-- The test for the last node holds for the first one. -/
theorem isLast_iff (ring : l.Ring h (pre ++ x :: post)) (out : h ∉ pre) :
    isLast l h x = true ↔ pre = [] := by
  rw [isLast, decide_eq_true_iff]
  change prev l x = h ↔ _
  rw [(neighbours ring).2]
  rcases List.eq_nil_or_concat pre with rfl | ⟨pre, y, rfl⟩
  · simp
  · have other : y ≠ h := by
      rintro rfl
      exact out (by simp)
    simp [other]

/-- **Two tests.** On a well-formed list the macros agree with a visit exactly about the nodes
that are both the first and the last, or neither: the two tests are exchanged. -/
theorem observers_agree_iff (ring : l.Ring h ns) (nodup : (h :: ns).Nodup) (hx : x ∈ ns) :
    (∃ vs turns, (∀ more, turns ≤ more → foreach l h more = some vs) ∧ Observed l h vs x) ↔
      ns = [x] ∨ ns.head? ≠ some x ∧ ns.getLast? ≠ some x := by
  have apart := (List.nodup_cons.1 nodup).1
  have visits (more : Nat) (enough : ns.length + 1 ≤ more) : foreach l h more = some ns :=
    (walk_ring ring apart enough).1
  obtain ⟨start, finish⟩ := ends ring hx
  obtain ⟨pre, post, rfl⟩ := List.append_of_mem hx
  obtain ⟨hpre, hpost, xpre, xpost⟩ := node_apart nodup
  have single : pre ++ x :: post = [x] ↔ pre = [] ∧ post = [] := by
    cases pre with
    | nil => simp
    | cons y pre => simp
  have isStart : x = first l h ↔ pre = [] := by
    rw [← head_iff xpre, start, Option.some.injEq, eq_comm]
  have isFinish : x = last l h ↔ post = [] := by
    rw [← last_iff xpost, finish, Option.some.injEq, eq_comm]
  rw [single, Ne, Ne, head_iff xpre, last_iff xpost]
  constructor
  · rintro ⟨vs, turns, run, observed⟩
    have same := observed.isFirst
    rw [isFirst_iff ring hpost, isStart] at same
    tauto
  · intro both
    refine ⟨_, _, visits, start, finish, ?_, ?_, ?_, ?_⟩
    · rw [isFirst_iff ring hpost, isStart]
      tauto
    · rw [isLast_iff ring hpre, isFinish]
      tauto
    · intro pre' post' shape
      exact (neighbours (shape ▸ ring)).1
    · intro pre' post' shape
      exact (neighbours (shape ▸ ring)).2

/-- A list of one node. -/
theorem observers_agree_single : ∃ vs turns,
    (∀ more, turns ≤ more →
      foreach (append (init ⟨fun _ => 0, fun _ => 0⟩ 1) 1 2) 1 more = some vs) ∧
      Observed (append (init ⟨fun _ => 0, fun _ => 0⟩ 1) 1 2) 1 vs 2 := by
  have ring : (append (init ⟨fun _ => 0, fun _ => 0⟩ 1) 1 2).Ring 1 [2] :=
    linked_cons.2 ⟨⟨rfl, rfl⟩, linked_cons.2 ⟨⟨rfl, rfl⟩, linked_single⟩⟩
  exact (observers_agree_iff ring (by decide) (by decide)).2 (Or.inl rfl)

/-- The first of two nodes, which is taken for the last one. -/
theorem first_of_two :
    (append (append (init ⟨fun _ => 0, fun _ => 0⟩ 1) 1 2) 1 3).Ring 1 [2, 3] ∧
      ¬∃ vs turns, (∀ more, turns ≤ more →
        foreach (append (append (init ⟨fun _ => 0, fun _ => 0⟩ 1) 1 2) 1 3) 1 more = some vs) ∧
        Observed (append (append (init ⟨fun _ => 0, fun _ => 0⟩ 1) 1 2) 1 3) 1 vs 2 := by
  constructor
  · exact linked_cons.2 ⟨⟨rfl, rfl⟩, linked_cons.2 ⟨⟨rfl, rfl⟩,
      linked_cons.2 ⟨⟨rfl, rfl⟩, linked_single⟩⟩⟩
  · rintro ⟨vs, turns, -, observed⟩
    exact Bool.false_ne_true (observed.isFirst.2 rfl)

end Coter.CtList
