import Coter.Container.CtListRun

/-!
# Iterating while nodes go away

`ct_list_foreach_entry_safe`, whose body may remove the entry it is given, and free it.

* `safe_visits`: the loop reads nothing but the links behind the current node;
* `foreach_safe_turns`: bodies made of list calls and of releases of the current node.
-/

namespace Coter.CtList

open Lib Lib.Links

/-- `ct_list_entry`: the entry whose member is the node. -/
def entry (offset node : Addr) : Addr := node - offset

/-- `&(pos_)->member_` -/
def member (offset pos : Addr) : Addr := pos + offset

/-- `ct_list_next_entry` -/
def nextEntry (offset : Addr) (l : Heap) (pos : Addr) : Addr :=
  if pos = 0 then 0 else entry offset (l.next (member offset pos))

/-- The loop of `ct_list_foreach_entry_safe`: the entries that were visited, and the links at
the end; `none` where `fuel` turns are not enough. -/
def safeLoop (offset head : Addr) (body : Addr → Heap → Heap) :
    Nat → Addr → Addr → Heap → Option (List Addr × Heap)
  | 0, _, _, _ => none
  | fuel + 1, pos, nextNode, l =>
    if pos ≠ 0 ∧ member offset pos ≠ head then
      let l := body pos l
      (safeLoop offset head body fuel nextNode (nextEntry offset l nextNode) l).map
        fun (visited, l) => (pos :: visited, l)
    else some ([], l)

/-- `ct_list_foreach_entry_safe` -/
def foreachEntrySafe (offset head : Addr) (body : Addr → Heap → Heap) (fuel : Nat) (l : Heap) :
    Option (List Addr × Heap) :=
  let pos := entry offset (l.next head)
  safeLoop offset head body fuel pos (nextEntry offset l pos) l

variable {l l' : Heap} {f : Family} {h x y offset : Addr} {ns pre post : List Addr}
  {body : Addr → Heap → Heap}

@[simp] theorem member_entry (offset node : Addr) : member offset (entry offset node) = node :=
  sub_add_cancel node offset

@[simp] theorem entry_member (offset pos : Addr) : entry offset (member offset pos) = pos :=
  add_sub_cancel_right pos offset

theorem entry_ne_null (hx : x ≠ offset) : entry offset x ≠ 0 := sub_ne_zero.2 hx

theorem nextEntry_entry (hx : x ≠ offset) :
    nextEntry offset l (entry offset x) = entry offset (l.next x) := by
  rw [nextEntry, if_neg (entry_ne_null hx), member_entry]

/-! ## What the loop reads -/

/-- In its turn the body leaves alone where the links of the later nodes lead. -/
def Keeps (offset : Addr) (body : Addr → Heap → Heap) : List Addr → Heap → Prop
  | [], _ => True
  | x :: post, l =>
    (∀ y ∈ post, (body (entry offset x) l).next y = l.next y) ∧
      Keeps offset body post (body (entry offset x) l)

/-- The bodies of the nodes, one after the other. -/
def bodies (offset : Addr) (body : Addr → Heap → Heap) (l : Heap) (ns : List Addr) : Heap :=
  ns.foldl (fun l x => body (entry offset x) l) l

/-- The links that lead through the nodes to the head. -/
def Leads (l : Heap) (h : Addr) (ns : List Addr) : Prop :=
  (ns ++ [h]).IsChain fun x y => l.next x = y

theorem Leads.cons (leads : Leads l h (x :: ns)) : l.next x = ns.headD h ∧ Leads l h ns := by
  cases ns with
  | nil => exact ⟨(List.isChain_cons_cons.1 leads).1, List.isChain_singleton h⟩
  | cons y ns => exact List.isChain_cons_cons.1 leads

theorem Leads.congr (leads : Leads l h ns) (same : ∀ y ∈ ns, l'.next y = l.next y) :
    Leads l' h ns := by
  induction ns with
  | nil => exact List.isChain_singleton h
  | cons x ns ih =>
    obtain ⟨here, rest⟩ := leads.cons
    have later := ih rest fun y hy => same y (List.mem_cons_of_mem x hy)
    have first : l'.next x = ns.headD h := (same x List.mem_cons_self).trans here
    cases ns with
    | nil => exact List.isChain_cons_cons.2 ⟨first, later⟩
    | cons y ns => exact List.isChain_cons_cons.2 ⟨first, later⟩

/-- The loop visits every node once and in order, whatever else the body does. -/
theorem safe_visits {fuel : Nat} (leads : Leads l h ns) (out : h ∉ ns) (real : offset ∉ ns)
    (keeps : Keeps offset body ns l) (enough : ns.length < fuel) :
    safeLoop offset h body fuel (entry offset (ns.headD h))
        (nextEntry offset l (entry offset (ns.headD h))) l =
      some (ns.map (entry offset), bodies offset body l ns) := by
  induction ns generalizing l fuel with
  | nil =>
    obtain ⟨fuel, rfl⟩ := Nat.exists_eq_succ_of_ne_zero (Nat.ne_of_gt enough)
    have ends : ¬(entry offset h ≠ 0 ∧ member offset (entry offset h) ≠ h) := by simp
    rw [List.headD_nil, safeLoop, if_neg ends]
    rfl
  | cons x post ih =>
    obtain ⟨fuel, rfl⟩ := Nat.exists_eq_succ_of_ne_zero (show fuel ≠ 0 by omega)
    rw [List.mem_cons, not_or] at out real
    obtain ⟨kept, rest⟩ := keeps
    obtain ⟨next, later⟩ := leads.cons
    have goes : entry offset x ≠ 0 ∧ member offset (entry offset x) ≠ h := by
      rw [member_entry]
      exact ⟨entry_ne_null (Ne.symm real.1), Ne.symm out.1⟩
    rw [List.headD_cons, nextEntry_entry (Ne.symm real.1), next, safeLoop, if_pos goes]
    dsimp only
    rw [ih (later.congr kept) out.2 real.2 rest (Nat.lt_of_succ_lt_succ enough)]
    rfl

/-! ## Bodies made of list calls -/

/-- What the body does for a node: list calls, and `free` if there are new contents for the
memory of its links. -/
structure Turn where
  ops : List Op
  freed : Option (Addr × Addr)

/-- The body for the node `x`. -/
def Turn.run (turn : Turn) (x : Addr) (l : Heap) : Heap :=
  match turn.freed with
  | none => CtList.run l turn.ops
  | some (prev, next) => ((CtList.run l turn.ops).setPrev x prev).setNext x next

/-- The caller sees to what the calls ask for, leaves the later nodes where they are, and
frees the node only when it is off all lists. -/
structure Turn.Allowed (turn : Turn) (f : Family) (h x : Addr) (post : List Addr) : Prop where
  calls : AllAllowed f turn.ops
  behind : ∃ pre, applyAll f turn.ops h = some (pre ++ post)
  freed : turn.freed.isSome → Free (applyAll f turn.ops) x

/-- The sequences after the bodies of the nodes. -/
def applyTurns (turn : Addr → Turn) (f : Family) (ns : List Addr) : Family :=
  ns.foldl (fun f x => applyAll f (turn x).ops) f

/-- Every body of the loop is allowed in its turn. -/
def TurnsAllowed (turn : Addr → Turn) (h : Addr) : Family → List Addr → Prop
  | _, [] => True
  | f, x :: post =>
    (turn x).Allowed f h x post ∧ TurnsAllowed turn h (applyAll f (turn x).ops) post

/-- What a freed node holds is of no concern. -/
theorem Holds.freed (hl : Holds l f) (free : Free f x) (prev next : Addr) :
    Holds ((l.setPrev x prev).setNext x next) f := by
  refine ⟨fun g ms hg => ?_, hl.nodup, hl.apart⟩
  have out := free g ms hg
  have apart (y : Addr) (hy : y ∈ g :: (ms ++ [g])) : y ≠ x := by
    rintro rfl
    exact out (by simpa [or_comm] using hy)
  refine keep (hl.ring g ms hg) (fun y hy => ?_) (fun y hy => ?_)
  · rw [setNext_next, if_neg (apart y (List.mem_of_mem_dropLast hy))]
    rfl
  · rw [setNext_prev, setPrev_prev, if_neg (apart y (List.mem_of_mem_tail hy))]

theorem Turn.holds {turn : Turn} (hl : Holds l f) (allowed : turn.Allowed f h x post) :
    Holds (turn.run x l) (applyAll f turn.ops) := by
  have holds := run_refines hl allowed.calls
  have free := allowed.freed
  unfold Turn.run
  cases hfreed : turn.freed with
  | none => exact holds
  | some links =>
    rw [hfreed] at free
    exact holds.freed (free rfl) links.1 links.2

/-- A ring leads from any node on to its head. -/
theorem leads_of_ring (pre : List Addr) (ring : l.Ring h (pre ++ post)) : Leads l h post := by
  have chain := List.IsChain.imp (fun _ _ link => link.1) ring
  rw [List.append_assoc, ← List.cons_append] at chain
  exact chain.right_of_append

theorem next_unique (leads : Leads l h ns) (leads' : Leads l' h ns) (hy : y ∈ ns) :
    l'.next y = l.next y := by
  induction ns with
  | nil => cases hy
  | cons x ns ih =>
    obtain ⟨first, rest⟩ := leads.cons
    obtain ⟨first', rest'⟩ := leads'.cons
    rcases List.mem_cons.1 hy with rfl | hy
    · exact first'.trans first.symm
    · exact ih rest rest' hy

/-- The sequences are what the links hold after every turn, and no turn touches the links
behind its node. -/
theorem turns_keep (offset : Addr) (pre : List Addr) {turn : Addr → Turn} (hl : Holds l f)
    (hf : f h = some (pre ++ ns))
    (allowed : TurnsAllowed turn h f ns) :
    Keeps offset (fun pos => (turn (member offset pos)).run (member offset pos)) ns l ∧
      Holds (bodies offset (fun pos => (turn (member offset pos)).run (member offset pos)) l ns)
        (applyTurns turn f ns) := by
  induction ns generalizing l f pre with
  | nil => exact ⟨trivial, hl⟩
  | cons x post ih =>
    obtain ⟨here, later⟩ := allowed
    obtain ⟨pre', hpre⟩ := here.behind
    have holds := Turn.holds hl here
    have leads := (leads_of_ring pre (hl.ring h _ hf)).cons.2
    have leads' := leads_of_ring pre' (holds.ring h _ hpre)
    obtain ⟨keeps, rest⟩ := ih pre' holds hpre later
    rw [Keeps, member_entry, bodies, List.foldl_cons, member_entry, applyTurns, List.foldl_cons]
    exact ⟨⟨fun y hy => next_unique leads leads' hy, keeps⟩, rest⟩

/-- **The loop survives its body.** The body may make any allowed list calls as long as the
nodes behind the current one stay where they are, and may free the current one once it is off
all lists. Then the loop ends, has visited exactly the entries of the list at its beginning,
each once and in order, and leaves the links of what the calls describe. -/
theorem foreach_safe_turns (turn : Addr → Turn) (hl : Holds l f) (hf : f h = some ns)
    (real : offset ∉ ns) (allowed : TurnsAllowed turn h f ns) (fuel : Nat)
    (enough : ns.length < fuel) :
    ∃ l', foreachEntrySafe offset h
        (fun pos => (turn (member offset pos)).run (member offset pos)) fuel l =
          some (ns.map (entry offset), l') ∧ Holds l' (applyTurns turn f ns) := by
  have ring := hl.ring h ns hf
  have out := (List.nodup_cons.1 (hl.nodup h ns hf)).1
  obtain ⟨keeps, holds⟩ := turns_keep offset [] hl hf allowed
  have first : l.next h = ns.headD h := by
    cases ns with
    | nil => exact (ring_nil.1 ring).1
    | cons x ns => exact ring_first ring
  refine ⟨_, ?_, holds⟩
  have visits := safe_visits (leads_of_ring [] ring) out real keeps enough
  rwa [← first] at visits

/-! A list of two nodes, each of them removed and freed. -/

def two : Family := fun k => if k = 1 then some [3, 4] else none

/-- The links of the list. -/
def twoLinks : Heap where
  prev x := if x = 1 then 4 else if x = 3 then 1 else 3
  next x := if x = 1 then 3 else if x = 3 then 4 else 1

theorem two_cases (hf : two h = some ns) : h = 1 ∧ ns = [3, 4] := by
  unfold two at hf
  split at hf
  · next first => exact ⟨first, by simpa using hf.symm⟩
  · cases hf

theorem twoLinks_holds : Holds twoLinks two := by
  constructor
  · intro h ns hf
    obtain ⟨rfl, rfl⟩ := two_cases hf
    unfold Links.Ring Linked
    decide
  · intro h ns hf
    obtain ⟨rfl, rfl⟩ := two_cases hf
    decide
  · intro h ns g ms hf hg apart
    exact absurd ((two_cases hf).1.trans (two_cases hg).1.symm) apart

theorem two_removed : TurnsAllowed (fun x => ⟨[.remove x], some (0, 0)⟩) 1 two [3, 4] := by
  refine ⟨⟨⟨⟨1, [3, 4], rfl, by decide⟩, trivial⟩, ⟨[], rfl⟩, fun _ h ns hf => ?_⟩,
    ⟨⟨⟨1, [4], rfl, by decide⟩, trivial⟩, ⟨[], rfl⟩, fun _ h ns hf => ?_⟩, trivial⟩
  · obtain ⟨ms, hms, rfl⟩ := Option.map_eq_some_iff.1 hf
    obtain ⟨rfl, rfl⟩ := two_cases hms
    decide
  · obtain ⟨ms, hms, rfl⟩ := Option.map_eq_some_iff.1 hf
    obtain ⟨ls, hls, rfl⟩ := Option.map_eq_some_iff.1 hms
    obtain ⟨rfl, rfl⟩ := two_cases hls
    decide

theorem foreach_safe_turns_two : ∃ l', foreachEntrySafe 0 1
    (fun pos => Turn.run ⟨[.remove (member 0 pos)], some (0, 0)⟩ (member 0 pos)) 3 twoLinks =
      some ([3, 4], l') ∧ Holds l' (applyTurns (fun x => ⟨[.remove x], some (0, 0)⟩) two [3, 4]) :=
  foreach_safe_turns _ twoLinks_holds rfl (by decide) two_removed 3 (by decide)

end Coter.CtList
