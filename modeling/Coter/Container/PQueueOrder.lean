import Coter.Lib.DHeap
import Coter.Lib.Machine
import Coter.Container.PQueue

/-!
# The order of the priority queue

What the two sifts do to the slots of the storage, and which runs keep the
4-ary heap order. `pqueue_sift_down` compares the children of the hole with the
stale element the hole's slot still holds, so it never moves an element down
by more than one level; and a growth whose byte count wraps loses the storage
behind the wrapped count. `order_kept_iff` gives the exact condition on a run.
-/

namespace Coter.PQueue

open Function (update)
open Lib Lib.Blocks Lib.Comparator

/-! ## Slots of the storage -/

/-- The first `n` slots of stride `w` lie in the storage and below `2^32` bytes. -/
structure Fits (w n : Nat) (all : List UInt8) : Prop where
  pos : 0 < w
  room : n * w ≤ all.length
  small : n * w ≤ 2 ^ 32

variable {w n : Nat} {all : List UInt8}

theorem slot_end {i : Nat} (hi : i < n) : i * w + w ≤ n * w := by
  have := Nat.mul_le_mul_right w (Nat.succ_le_of_lt hi)
  rwa [Nat.succ_mul] at this

theorem Fits.offset_eq (h : Fits w n all) {i : Nat} (hi : i < n) : offset w i = i * w := by
  have : i * w + w ≤ n * w := slot_end hi
  have := h.small
  have := h.pos
  exact u32_of_lt (by omega)

theorem Fits.shrink (h : Fits w n all) {m : Nat} (hm : m ≤ n) : Fits w m all := by
  have := Nat.mul_le_mul_right w hm
  exact ⟨h.pos, Nat.le_trans this h.room, Nat.le_trans this h.small⟩

theorem Fits.of_length {all' : List UInt8} (h : Fits w n all) (hl : all'.length = all.length) :
    Fits w n all' := ⟨h.pos, hl ▸ h.room, h.small⟩

theorem load_slot (h : Fits w n all) {i : Nat} (hi : i < n) :
    load all (offset w i) w = .ok (slot w all i) := by
  rw [h.offset_eq hi, load_ok (Nat.le_trans (slot_end hi) h.room)]
  rfl

theorem slot_width (h : Fits w n all) {i : Nat} (hi : i < n) : (slot w all i).length = w :=
  read_length (Nat.le_trans (slot_end hi) h.room)

theorem store_slot (h : Fits w n all) {i : Nat} (hi : i < n) {b : Item} (hb : b.length = w) :
    ∃ all', store all (offset w i) b = .ok all' ∧ all'.length = all.length ∧
      slot w all' = update (slot w all) i b := by
  have room : i * w + b.length ≤ all.length := by
    have : i * w + w ≤ n * w := slot_end hi
    have := h.room
    omega
  refine ⟨write all (i * w) b, ?_, write_length room, ?_⟩
  · rw [h.offset_eq hi, store_ok room]
  · subst hb
    exact slot_write (by rwa [Nat.add_mul, Nat.one_mul])

/-! ## Sifting up -/

section
variable {cmp : Item → Item → Int}

/-- The loop ends with a hole that the waiting element fits into. -/
theorem siftUpLoop_spec (hc : TotalPreorder cmp) {tmp : Item} :
    ∀ (fuel : Nat) (all : List UInt8) (idx : Nat), Fits w n all → idx < n → idx < fuel →
      DHeap.UpOrder 4 cmp (slot w all) n idx tmp →
      ∃ all' hole, siftUpLoop cmp w fuel all idx tmp = .ok (all', hole) ∧
        all'.length = all.length ∧ hole < n ∧
        DHeap.Ordered 4 cmp (update (slot w all') hole tmp) n := by
  intro fuel
  induction fuel with
  | zero => intro all idx _ _ hfuel; omega
  | succ fuel ih =>
    intro all idx hf hidx hfuel o
    rw [siftUpLoop]
    by_cases hpos : 0 < idx
    · have up : (idx - 1) / 4 < idx := DHeap.parent_lt (d := 4) hpos
      simp only [hpos, ↓reduceIte, load_slot hf (show (idx - 1) / 4 < n by omega), ok_bind]
      by_cases hstop : 0 ≤ cmp tmp (slot w all ((idx - 1) / 4))
      · simp only [hstop, ↓reduceIte]
        exact ⟨all, idx, rfl, rfl, hidx, o.finish (fun _ => Int.not_lt.2 hstop)⟩
      · obtain ⟨all₁, hst, hl, hs⟩ := store_slot hf hidx (slot_width hf (show (idx - 1) / 4 < n by omega))
        simp only [hstop, ↓reduceIte, hst, ok_bind]
        have moved := o.move hc hpos hidx (Int.not_le.1 hstop)
        obtain ⟨all₂, hole, hrun, hl₂, hh, ho⟩ := ih all₁ ((idx - 1) / 4) (hf.of_length hl)
          (by omega) (by omega) (by rw [hs]; exact moved)
        exact ⟨all₂, hole, hrun, hl₂.trans hl, hh, ho⟩
    · simp only [hpos, ↓reduceIte]
      exact ⟨all, idx, rfl, rfl, hidx, o.finish (fun h => absurd h hpos)⟩

end

/-- The slots of the queue's storage. -/
def slots (q : PQueue) : Nat → Item := slot q.itemSize q.all

/-- The 4-ary heap order of the stored elements. -/
def Ordered (q : PQueue) : Prop := DHeap.Ordered 4 q.cmp q.slots q.size

theorem siftUp_spec {q : PQueue} (hc : TotalPreorder q.cmp) (hf : Fits q.itemSize q.size q.all)
    {a : Alloc} (ha : a.scratch = true) {idx : Nat} (hidx : idx < q.size)
    (o : DHeap.UpOrder 4 q.cmp q.slots q.size idx (q.slots idx)) :
    ∃ all, siftUp a q idx = .ok { q with all } ∧ all.length = q.all.length ∧
      Ordered { q with all } := by
  obtain ⟨all₁, hole, hrun, hl, hh, ho⟩ := siftUpLoop_spec hc (idx + 1) _ _ hf hidx (by omega) o
  have hf₁ := hf.of_length hl
  obtain ⟨all₂, hst, hl₂, hs⟩ := store_slot hf₁ hh (slot_width hf hidx)
  refine ⟨all₂, ?_, hl₂.trans hl, ?_⟩
  · simp only [slots] at hrun
    simp only [siftUp, ha, Bool.not_true, Bool.false_eq_true, ↓reduceIte,
      load_slot hf hidx, ok_bind, hrun, hst]
  · simp only [Ordered, slots, hs]
    exact ho

theorem append_spec {q : PQueue} (hc : TotalPreorder q.cmp) (ho : Ordered q)
    (hf : Fits q.itemSize (q.size + 1) q.all) {a : Alloc} (ha : a.scratch = true)
    (hsize : q.size + 1 < 2 ^ 32) {data : Item} (hd : q.itemSize ≤ data.length) :
    ∃ all, append a q data = .ok (true, { q with all, size := q.size + 1 }) ∧
      all.length = q.all.length ∧ Ordered { q with all, size := q.size + 1 } := by
  have hitem : (read data 0 q.itemSize).length = q.itemSize := read_length (by omega)
  obtain ⟨all₁, hst, hl, hs⟩ := store_slot hf (Nat.lt_succ_self q.size) hitem
  let q₁ : PQueue := { q with all := all₁, size := q.size + 1 }
  have hcongr : ∀ i, i < q.size → slot q.itemSize all₁ i = q.slots i := by
    intro i hi
    rw [hs, Function.update_of_ne (by omega)]
    rfl
  have ho₁ : DHeap.Ordered 4 q.cmp (slot q.itemSize all₁) q.size := DHeap.Ordered.congr ho hcongr
  obtain ⟨all₂, hup, hl₂, hord⟩ := siftUp_spec (q := q₁) hc (hf.of_length hl) ha
    (Nat.lt_succ_self q.size) (ho₁.upOrder_last _)
  refine ⟨all₂, ?_, hl₂.trans hl, hord⟩
  simp only [append, load_ok (show 0 + q.itemSize ≤ data.length by omega), ok_bind, hst,
    u32_of_lt hsize]
  exact congrArg (· >>= fun q => Except.ok (true, q)) hup

/-! ## Sifting down -/

section
variable {cmp : Item → Item → Int}

theorem smallestStep_spec (hf : Fits w n all) {idx s i : Nat} (hs : s < n)
    (hi : 4 * idx + i < 2 ^ 32) :
    smallestStep cmp w n all idx s i =
      .ok (if 4 * idx + i < n ∧ cmp (slot w all (4 * idx + i)) (slot w all s) < 0 then
        4 * idx + i else s) := by
  simp only [smallestStep, u32_of_lt hi]
  by_cases hn : n ≤ 4 * idx + i
  · simp [hn, show ¬ 4 * idx + i < n by omega]
  · have hlt : 4 * idx + i < n := by omega
    simp only [hn, ↓reduceIte, load_slot hf hlt, load_slot hf hs, ok_bind, hlt, true_and]

/-- The scan of the code is the scan of the heap library. -/
theorem smallestChild_spec (cmp : Item → Item → Int) (hf : Fits w n all) {idx : Nat} (hidx : idx < n)
    (h4 : 4 * idx + 4 < 2 ^ 32) :
    smallestChild cmp w n all idx = .ok (DHeap.leastChild 4 cmp (slot w all) n idx) := by
  have scan : ∀ (l : List Nat) (s : Nat), (∀ k ∈ l, k < 4) → s < n →
      (l.map (· + 1)).foldlM (smallestStep cmp w n all idx) s =
        .ok (l.foldl (fun s k => if 4 * idx + (k + 1) < n ∧
          cmp (slot w all (4 * idx + (k + 1))) (slot w all s) < 0 then
            4 * idx + (k + 1) else s) s) := by
    intro l
    induction l with
    | nil => intro s _ _; rfl
    | cons k l ih =>
      intro s hk hs
      have hk4 := hk k (List.mem_cons_self ..)
      rw [List.map_cons, List.foldlM_cons, smallestStep_spec hf hs (by omega), ok_bind,
        List.foldl_cons]
      refine ih _ (fun j hj => hk j (List.mem_cons_of_mem _ hj)) ?_
      split
      · rename_i h; exact h.1
      · exact hs
  exact scan (List.range 4) idx (fun k hk => List.mem_range.1 hk) hidx

/-- A turn that finds no child before the hole's slot ends the loop. -/
theorem siftDownLoop_stop {fuel idx : Nat} {tmp : Item}
    (h : smallestChild cmp w n all idx = .ok idx) :
    siftDownLoop cmp w n (fuel + 1) all idx tmp = .ok (all, idx) := by
  simp only [siftDownLoop, h, ok_bind, ↓reduceIte]

end

/-- From the root, with order everywhere below: the root element stays, or it
is exchanged with the first least child and moves no further. -/
theorem siftDown_root {q : PQueue} (hc : TotalPreorder q.cmp) (hf : Fits q.itemSize q.size q.all)
    {a : Alloc} (ha : a.scratch = true) (hpos : 0 < q.size) (hsmall : 4 * q.size < 2 ^ 32)
    (hbelow : ∀ i, 0 < i → i < q.size → DHeap.parent 4 i ≠ 0 →
      ¬ q.cmp (q.slots i) (q.slots (DHeap.parent 4 i)) < 0) :
    ∃ all, siftDown a q 0 = .ok { q with all } ∧ all.length = q.all.length ∧
      ((slot q.itemSize all = q.slots ∧ ∀ c, 0 < c → c < q.size → DHeap.parent 4 c = 0 →
          ¬ q.cmp (q.slots c) (q.slots 0) < 0) ∨
        ∃ s, DHeap.FirstLeast 4 q.cmp q.slots q.size 0 s ∧
          slot q.itemSize all = update (update q.slots 0 (q.slots s)) s (q.slots 0)) := by
  have scan := smallestChild_spec q.cmp hf hpos (by omega)
  rcases DHeap.leastChild_spec (f := q.slots) (n := q.size) hc (show 0 < 4 by decide) 0 with
    ⟨stay, hstay⟩ | hleast
  · -- no child is before the root element: it is written back where it was
    rw [show DHeap.leastChild 4 q.cmp (slot q.itemSize q.all) q.size 0 = 0 from stay] at scan
    obtain ⟨all₁, hst, hl, hs⟩ := store_slot hf hpos (slot_width hf hpos)
    refine ⟨all₁, ?_, hl, Or.inl ⟨?_, hstay⟩⟩
    · simp only [siftDown, ha, Bool.not_true, Bool.false_eq_true, ↓reduceIte, load_slot hf hpos,
        ok_bind, siftDownLoop_stop scan, hst]
    · rw [hs, Function.update_eq_self]
      rfl
  · generalize hsm : DHeap.leastChild 4 q.cmp q.slots q.size 0 = s at hleast
    rw [show DHeap.leastChild 4 q.cmp (slot q.itemSize q.all) q.size 0 = s from hsm] at scan
    obtain ⟨hs0, hsn, _⟩ := hleast.child
    have hbefore : ¬ q.cmp (slot q.itemSize q.all 0) (slot q.itemSize q.all s) ≤ 0 := by
      have := (hc.flip _ _).1 hleast.before
      simp only [slots] at this
      omega
    obtain ⟨all₁, hst₁, hl₁, hs₁⟩ := store_slot hf hpos (slot_width hf hsn)
    have hf₁ := hf.of_length hl₁
    -- the slot of the new hole is stale: it still holds the element copied up
    have stale : DHeap.leastChild 4 q.cmp (slot q.itemSize all₁) q.size s = s := by
      rcases DHeap.leastChild_spec (f := slot q.itemSize all₁) (n := q.size) hc
        (show 0 < 4 by decide) s with ⟨h, _⟩ | h
      · exact h
      · exfalso
        generalize DHeap.leastChild 4 q.cmp (slot q.itemSize all₁) q.size s = c at h
        obtain ⟨hc0, hcn, hcp⟩ := h.child
        have hlt := h.before
        have hup := DHeap.parent_lt (d := 4) hc0
        rw [hs₁, Function.update_of_ne (by omega), Function.update_of_ne (by omega)] at hlt
        refine hbelow _ hc0 hcn (by omega) ?_
        rw [hcp]
        exact hlt
    have scan₁ := smallestChild_spec q.cmp hf₁ hsn (by omega)
    rw [stale] at scan₁
    obtain ⟨all₂, hst₂, hl₂, hs₂⟩ := store_slot hf₁ hsn (slot_width hf hpos)
    refine ⟨all₂, ?_, hl₂.trans hl₁, Or.inr ⟨s, hleast, by rw [hs₂, hs₁]; rfl⟩⟩
    obtain ⟨m, hm⟩ : ∃ m, q.size = m + 1 := ⟨q.size - 1, by omega⟩
    have turn : siftDownLoop q.cmp q.itemSize q.size (q.size + 1) q.all 0
        (slot q.itemSize q.all 0) = .ok (all₁, s) := by
      rw [siftDownLoop, scan]
      simp only [ok_bind, show ¬ s = 0 by omega, ↓reduceIte, load_slot hf hsn, hbefore, hst₁]
      rw [hm] at scan₁ ⊢
      exact siftDownLoop_stop scan₁
    simp only [siftDown, ha, Bool.not_true, Bool.false_eq_true, ↓reduceIte, load_slot hf hpos,
      ok_bind, turn, hst₂]

/-! ## Popping -/

/-- The element at the end of the array does not sink two levels: when it would
change places with a child of the root, none of that child's children is before it. -/
def SinksOnce (q : PQueue) : Prop :=
  ∀ s, DHeap.FirstLeast 4 q.cmp (update q.slots 0 (q.slots (q.size - 1))) (q.size - 1) 0 s →
    ∀ c, 0 < c → c < q.size - 1 → DHeap.parent 4 c = s →
      ¬ q.cmp (q.slots c) (q.slots (q.size - 1)) < 0

/-- With at most six elements there is no third level left to sink to. -/
theorem sinksOnce_of_small {q : PQueue} (h : q.size ≤ 6) : SinksOnce q := by
  intro s hs c hc0 hcn hp
  have := hs.child.1
  simp only [DHeap.parent] at hp
  omega

/-- The elements that are left after the last one replaced the root, in `f`, and the root
sank once or not at all. -/
def SunkRoot (cmp : Item → Item → Int) (f g : Nat → Item) (n : Nat) : Prop :=
  (g = f ∧ ∀ c, 0 < c → c < n → DHeap.parent 4 c = 0 → ¬ cmp (f c) (f 0) < 0) ∨
    ∃ s, DHeap.FirstLeast 4 cmp f n 0 s ∧ g = update (update f 0 (f s)) s (f 0)

/-- No element is left that was not there. -/
theorem SunkRoot.source {cmp : Item → Item → Int} {f g : Nat → Item} {n : Nat}
    (h : SunkRoot cmp f g n) (hn : 0 < n) {i : Nat} (hi : i < n) : ∃ j, j < n ∧ g i = f j := by
  obtain ⟨rfl, -⟩ | ⟨s, hleast, rfl⟩ := h
  · exact ⟨i, hi, rfl⟩
  · by_cases his : i = s
    · exact ⟨0, hn, by rw [his, Function.update_self]⟩
    · rw [Function.update_of_ne his]
      by_cases hi0 : i = 0
      · exact ⟨s, hleast.child.2.1, by rw [hi0, Function.update_self]⟩
      · exact ⟨i, hi, by rw [Function.update_of_ne hi0]⟩

/-- What is left is ordered exactly if the last element sinks no further. -/
theorem SunkRoot.ordered_iff {cmp : Item → Item → Int} (hc : TotalPreorder cmp)
    {f g : Nat → Item} {last : Item} {n : Nat} (h : SunkRoot cmp (update f 0 last) g n)
    (hord : DHeap.Ordered 4 cmp f n) :
    DHeap.Ordered 4 cmp g n ↔ ∀ s, DHeap.FirstLeast 4 cmp (update f 0 last) n 0 s →
      ∀ c, 0 < c → c < n → DHeap.parent 4 c = s → ¬ cmp (f c) last < 0 := by
  have hchild : ∀ c, 0 < c → update f 0 last c = f c := by
    intro c hc0
    rw [Function.update_of_ne (by omega)]
  have hroot : update f 0 last 0 = last := Function.update_self ..
  obtain ⟨rfl, hstay⟩ | ⟨s, hleast, rfl⟩ := h
  · constructor
    · intro _ s hs
      obtain ⟨hs0, hsn, hsp⟩ := hs.child
      exact absurd hs.before (hstay s hs0 hsn hsp)
    · intro _
      refine DHeap.root_ordered hord (fun c hc0 hcn hp => ?_)
      have := hstay c hc0 hcn hp
      rwa [hchild c hc0, hroot] at this
  · obtain ⟨hs0, hsn, hsp⟩ := hleast.child
    have hbefore := hleast.before
    rw [hchild s hs0, hroot] at hbefore
    have hfirst : ∀ c, 0 < c → c < n → DHeap.parent 4 c = 0 → cmp (f s) (f c) ≤ 0 := by
      intro c hc0 hcn hp
      have := hleast.least c hc0 hcn hp
      rwa [hchild s hs0, hchild c hc0] at this
    rw [hchild s hs0, hroot, Function.update_idem,
      DHeap.sink_ordered_iff hc hord hs0 hsn hsp hbefore hfirst]
    constructor
    · intro h t ht
      obtain rfl := ht.unique hleast hc
      exact h
    · intro h
      exact h s hleast

theorem pop_spec {q : PQueue} (hc : TotalPreorder q.cmp) (ho : Ordered q)
    (hf : Fits q.itemSize q.size q.all) {a : Alloc} (ha : a.scratch = true) (hpos : 0 < q.size)
    (hsmall : 4 * q.size < 2 ^ 32 + 4) :
    ∃ all, pop a q = .ok (some (q.slots 0), { q with all, size := q.size - 1 }) ∧
      all.length = q.all.length ∧
      (Ordered { q with all, size := q.size - 1 } ↔ SinksOnce q) ∧
      ∀ i, i < q.size - 1 → ∃ j, j < q.size ∧ slot q.itemSize all i = q.slots j := by
  have hzero : offset q.itemSize 0 = 0 := by simp [offset, u32]
  have hload : load q.all 0 q.itemSize = .ok (q.slots 0) := by
    have := load_slot hf hpos
    rwa [hzero] at this
  by_cases hone : q.size = 1
  · refine ⟨q.all, ?_, rfl, ⟨fun _ => sinksOnce_of_small (by omega), fun _ => ?_⟩, fun i hi => by omega⟩
    · simp only [pop, hone, Nat.one_ne_zero, ↓reduceIte, hload, ok_bind, Nat.sub_self,
        Nat.lt_irrefl]
    · intro i hi hin
      simp only at hin
      omega
  · -- the last element replaces the root, in a storage of one element less
    obtain ⟨n, hn⟩ : ∃ n, q.size = n + 1 := ⟨q.size - 1, by omega⟩
    have hn0 : 0 < n := by omega
    let last := q.slots n
    have hwidth : last.length = q.itemSize := slot_width hf (by omega)
    obtain ⟨all₁, hst, hl, hs⟩ := store_slot hf hpos hwidth
    rw [hzero] at hst
    let q₁ : PQueue := { q with all := all₁, size := n }
    have hslots : q₁.slots = update q.slots 0 last := hs
    have hord : DHeap.Ordered 4 q.cmp q.slots n := DHeap.Ordered.shrink ho (by omega)
    obtain ⟨all₂, hdown, hl₂, hcases⟩ := siftDown_root (q := q₁) hc
      ((hf.shrink (show n ≤ q.size by omega)).of_length hl) ha hn0 (by show 4 * n < _; omega) (by
        intro i hi (hin : i < n) hp
        rw [hslots, Function.update_of_ne (by omega), Function.update_of_ne hp]
        exact hord i hi hin)
    have sunk : SunkRoot q.cmp (update q.slots 0 last) (slot q.itemSize all₂) n :=
      hslots ▸ hcases
    refine ⟨all₂, ?_, hl₂.trans hl, ?_, ?_⟩
    · simp only [pop, hn, Nat.succ_ne_zero, ↓reduceIte, hload, ok_bind, Nat.add_sub_cancel, hn0,
        load_slot hf (show n < q.size by omega)]
      rw [show store q.all 0 (slot q.itemSize q.all n) = .ok all₁ from hst, ok_bind]
      exact congrArg (· >>= fun q' => Except.ok (some (q.slots 0), q')) hdown
    · simp only [Ordered, slots, hn, Nat.add_sub_cancel, SinksOnce]
      exact sunk.ordered_iff hc hord
    · intro i hi
      obtain ⟨j, hj, heq⟩ := sunk.source hn0 (i := i) (by omega)
      rw [heq]
      by_cases hj0 : j = 0
      · exact ⟨n, by omega, by rw [hj0, Function.update_self]⟩
      · exact ⟨j, by omega, Function.update_of_ne hj0 ..⟩

/-! ## Runs of pushes and pops -/

/-- The allocator grants every request; a growth brings the bytes `fresh`. -/
inductive Op
  | push (data : Item) (fresh : Nat → UInt8)
  | pop

inductive Out
  | pushed (ok : Bool)
  | popped (out : Option Item)

def Out.item : Out → Option Item
  | .pushed _ => none
  | .popped out => out

def step (q : PQueue) : Op → Except Fault (Out × PQueue)
  | .push data fresh => do
    let (ok, q) ← push ⟨true, some fresh⟩ q data
    .ok (.pushed ok, q)
  | .pop => do
    let (out, q) ← pop ⟨true, none⟩ q
    .ok (.popped out, q)

/-- The storage of a run that has not faulted: a dynamic queue owns exactly its
capacity in bytes, a static one at least what it has filled. -/
structure Valid (q : PQueue) : Prop where
  stride : 4 ≤ q.itemSize ∧ q.itemSize ≤ 512
  le : q.size ≤ q.cap
  fits : Fits q.itemSize q.size q.all
  owned : q.isDynamic = true → q.all.length = q.cap * q.itemSize ∧ q.cap * q.itemSize < 2 ^ 32

/-- The capacity a full queue has to grow to, before any wrap. -/
def growth (q : PQueue) : Nat := if q.cap = 0 then 8 else q.cap * 2

/-- A step that keeps the order. A push that is not refused gets a whole element
and room for it, and a growth stays below `2^32` bytes; a pop does not have to
move the last element down by two levels. -/
def OrderSafe (q : PQueue) : Op → Prop
  | .push data _ =>
    (q.size = q.cap → q.isDynamic = true →
      q.itemSize ≤ data.length ∧ growth q * q.itemSize < 2 ^ 32) ∧
    (q.size < q.cap →
      q.itemSize ≤ data.length ∧ (q.size + 1) * q.itemSize ≤ q.all.length ∧
        (q.size + 1) * q.itemSize ≤ 2 ^ 32)
  | .pop => SinksOnce q

/-- No stored element compares before `x`. -/
def Least (q : PQueue) (x : Item) : Prop := ∀ i, i < q.size → ¬ q.cmp (q.slots i) x < 0

/-- The array is in heap order and `ct_pqueue_top` designates a least element. -/
def InOrder (q : PQueue) : Prop := Ordered q ∧ ∀ x, top q = some x → Least q x

/-- A pop of a non-empty queue delivers a stored element, and a least one. -/
def Delivers (q : PQueue) (op : Op) (o : Out) (_ : PQueue) : Prop :=
  op = .pop → (q.size = 0 ∧ o = .popped none) ∨
    ∃ x, o = .popped (some x) ∧ (∃ i, i < q.size ∧ x = q.slots i) ∧ Least q x

/-- The queue that `pre` reaches delivers a sorted sequence to `k` pops. -/
def DrainsSorted (q : PQueue) (pre : List Op) (k : Nat) : Prop :=
  ∃ os t xs u, Machine.exec step q pre = .ok (os, t) ∧
    Machine.exec step t (List.replicate k Op.pop) = .ok (xs, u) ∧
    (xs.filterMap Out.item).length = min k t.size ∧
    (xs.filterMap Out.item).Pairwise (fun x y => q.cmp x y ≤ 0)

/-- The run, and any number of pops in a queue that it reaches, keep the heap order and deliver
least elements, and the pops deliver them sorted. -/
def OrderKept (q : PQueue) (ops : List Op) : Prop :=
  ∀ pre, pre <+: ops → ∀ k,
    Machine.Along step InOrder Delivers q (pre ++ List.replicate k Op.pop) ∧ DrainsSorted q pre k

/-- Every step of the run is `OrderSafe`, and so is every pop that drains a queue it reaches. -/
def DrainSafe (q : PQueue) (ops : List Op) : Prop :=
  ∀ pre, pre <+: ops → ∀ k, Machine.Meets step OrderSafe q (pre ++ List.replicate k Op.pop)

theorem least_root {q : PQueue} (hc : TotalPreorder q.cmp) (ho : Ordered q) :
    Least q (q.slots 0) :=
  fun i hi => hc.not_before.2 (DHeap.Ordered.root_min hc ho i hi)

theorem inOrder_of_ordered {q : PQueue} (hc : TotalPreorder q.cmp) (ho : Ordered q) : InOrder q := by
  refine ⟨ho, fun x hx => ?_⟩
  by_cases h0 : q.size = 0
  · simp [top, h0] at hx
  · obtain rfl : q.slots 0 = x := by simpa [top, h0, slots, slot] using hx
    exact least_root hc ho

/-! ### Growth -/

theorem realloc_length (all : List UInt8) (bytes : Nat) (fresh : Nat → UInt8) :
    (realloc all bytes fresh).length = bytes := by
  simp only [realloc, List.length_append, List.length_take, List.length_map, List.length_range]
  omega

theorem slot_realloc {bytes i : Nat} (fresh : Nat → UInt8) (hold : i * w + w ≤ all.length)
    (hnew : all.length ≤ bytes) : slot w (realloc all bytes fresh) i = slot w all i := by
  simp only [slot, realloc, List.take_of_length_le hnew]
  exact read_append hold

theorem nextCap_eq {q : PQueue} (hv : Valid q) (hd : q.isDynamic = true) :
    q.nextCap = growth q := by
  have := hv.stride
  have := (hv.owned hd).2
  have : q.cap * 4 ≤ q.cap * q.itemSize := Nat.mul_le_mul_left _ (by omega)
  simp only [nextCap, growth]
  split
  · rfl
  · exact u32_of_lt (by omega)

theorem cap_lt_growth (q : PQueue) : q.cap < growth q := by
  simp only [growth]
  split <;> omega

theorem reserve_growth {q : PQueue} (hv : Valid q) (hd : q.isDynamic = true)
    (fresh : Nat → UInt8) :
    reserve ⟨true, some fresh⟩ q q.nextCap = (true, { q with
      all := realloc q.all (u32 (growth q * q.itemSize)) fresh, cap := growth q }) := by
  have := cap_lt_growth q
  simp only [reserve, hd, Bool.not_true, Bool.false_eq_true, ↓reduceIte, nextCap_eq hv hd,
    show ¬ growth q ≤ q.cap by omega]

theorem push_full {q : PQueue} (hv : Valid q) (hfull : q.size = q.cap) (hd : q.isDynamic = true)
    (data : Item) (fresh : Nat → UInt8) :
    push ⟨true, some fresh⟩ q data = append ⟨true, some fresh⟩ { q with
      all := realloc q.all (u32 (growth q * q.itemSize)) fresh, cap := growth q } data := by
  simp only [push, hfull, ↓reduceIte, hd, Bool.not_true, Bool.false_eq_true,
    reserve_growth hv hd]

/-- A growth that stays below `2^32` bytes keeps the elements and makes room. -/
theorem grown {q : PQueue} (hv : Valid q) (ho : Ordered q) (hfull : q.size = q.cap)
    (hd : q.isDynamic = true) (hsmall : growth q * q.itemSize < 2 ^ 32) (fresh : Nat → UInt8) :
    let all := realloc q.all (u32 (growth q * q.itemSize)) fresh
    Fits q.itemSize (q.size + 1) all ∧ Ordered { q with all, cap := growth q } := by
  intro all
  have hlen : all.length = growth q * q.itemSize := by
    rw [realloc_length, u32_of_lt hsmall]
  have hcap := cap_lt_growth q
  have hmul : (q.size + 1) * q.itemSize ≤ growth q * q.itemSize :=
    Nat.mul_le_mul_right _ (by omega)
  have hown := hv.owned hd
  have hcaps : q.cap * q.itemSize ≤ growth q * q.itemSize := Nat.mul_le_mul_right _ (by omega)
  refine ⟨⟨hv.fits.pos, by omega, by omega⟩, ?_⟩
  refine DHeap.Ordered.congr ho (fun i (hi : i < q.size) => ?_)
  have := hv.fits.room
  have hend : i * q.itemSize + q.itemSize ≤ q.size * q.itemSize := slot_end hi
  have hold : i * q.itemSize + q.itemSize ≤ q.all.length := by omega
  exact slot_realloc fresh hold (by rw [u32_of_lt hsmall]; omega)

/-! ### One step -/

theorem Valid.size_small {q : PQueue} (hv : Valid q) : 4 * q.size ≤ 2 ^ 32 := by
  have := hv.stride
  have := hv.fits.small
  have : q.size * 4 ≤ q.size * q.itemSize := Nat.mul_le_mul_left _ (by omega)
  omega

/-- What no operation changes: the comparator, and a static queue's storage. -/
structure SameStore (q t : PQueue) : Prop where
  cmp : t.cmp = q.cmp
  dynamic : t.isDynamic = q.isDynamic
  static : q.isDynamic = false → t.all.length = q.all.length

/-- The queue behind a granted push. -/
theorem Valid.appended {q : PQueue} (hv : Valid q) (hlt : q.size < q.cap)
    (hf : Fits q.itemSize (q.size + 1) q.all) {all : List UInt8} (hl : all.length = q.all.length) :
    Valid { q with all, size := q.size + 1 } :=
  ⟨hv.stride, hlt, hf.of_length hl, fun hd => by
    obtain ⟨hown, hsmall⟩ := hv.owned hd
    exact ⟨hl.trans hown, hsmall⟩⟩

theorem Valid.grown {q : PQueue} (hv : Valid q) (hsmall : growth q * q.itemSize < 2 ^ 32)
    {all : List UInt8} (hf : Fits q.itemSize q.size all)
    (hl : all.length = growth q * q.itemSize) : Valid { q with all, cap := growth q } :=
  ⟨hv.stride, Nat.le_trans hv.le (Nat.le_of_lt (cap_lt_growth q)), hf, fun _ => ⟨hl, hsmall⟩⟩

/-- A push that is not refused, once there is room for its element. -/
theorem append_valid {q : PQueue} (hc : TotalPreorder q.cmp) (hv : Valid q) (ho : Ordered q)
    (hlt : q.size < q.cap) (hf : Fits q.itemSize (q.size + 1) q.all) {a : Alloc}
    (ha : a.scratch = true) {data : Item} (hd : q.itemSize ≤ data.length) :
    ∃ t, append a q data = .ok (true, t) ∧ Valid t ∧ Ordered t ∧ SameStore q t := by
  have := hv.stride
  have := hf.small
  have : (q.size + 1) * 4 ≤ (q.size + 1) * q.itemSize := Nat.mul_le_mul_left _ (by omega)
  obtain ⟨all, hrun, hl, hord⟩ := append_spec hc ho hf ha (by omega) hd
  exact ⟨_, hrun, hv.appended hlt hf hl, hord, rfl, rfl, fun _ => hl⟩

theorem push_valid {q : PQueue} (hc : TotalPreorder q.cmp) (hv : Valid q) (ho : Ordered q)
    {data : Item} {fresh : Nat → UInt8} (hsafe : OrderSafe q (.push data fresh)) :
    ∃ ok t, push ⟨true, some fresh⟩ q data = .ok (ok, t) ∧ Valid t ∧ Ordered t ∧ SameStore q t := by
  obtain ⟨hgrow, hroom⟩ := hsafe
  by_cases hfull : q.size = q.cap
  · cases hd : q.isDynamic with
    | false => exact ⟨false, q, by simp [push, hfull, hd], hv, ho, rfl, rfl, fun _ => rfl⟩
    | true =>
      obtain ⟨hdata, hsmall⟩ := hgrow hfull hd
      obtain ⟨hf, hord⟩ := grown hv ho hfull hd hsmall fresh
      have hl := realloc_length q.all (u32 (growth q * q.itemSize)) fresh
      rw [u32_of_lt hsmall] at hl hf hord
      let q₁ : PQueue :=
        { q with all := realloc q.all (growth q * q.itemSize) fresh, cap := growth q }
      have hv₁ : Valid q₁ := hv.grown hsmall (hf.shrink (Nat.le_succ _)) hl
      obtain ⟨t, hrun, hvt, hot, hsame⟩ := append_valid (q := q₁) (a := ⟨true, some fresh⟩) hc hv₁ hord
        (hfull ▸ cap_lt_growth q) hf rfl hdata
      rw [push_full hv hfull hd, u32_of_lt hsmall]
      exact ⟨true, t, hrun, hvt, hot, hsame.cmp, hsame.dynamic, fun h => by simp [hd] at h⟩
  · obtain ⟨hdata, hbytes, hsmall⟩ := hroom (Nat.lt_of_le_of_ne hv.le hfull)
    obtain ⟨t, hrun, ht⟩ := append_valid (a := ⟨true, some fresh⟩) hc hv ho
      (Nat.lt_of_le_of_ne hv.le hfull) ⟨hv.fits.pos, hbytes, hsmall⟩ rfl hdata
    exact ⟨true, t, by simp only [push, hfull, ↓reduceIte]; exact hrun, ht⟩

/-- What a pop of a non-empty ordered queue leaves behind. -/
theorem pop_valid {q : PQueue} (hc : TotalPreorder q.cmp) (hv : Valid q) (ho : Ordered q)
    {a : Alloc} (ha : a.scratch = true) (hpos : 0 < q.size) :
    ∃ t, pop a q = .ok (some (q.slots 0), t) ∧ Valid t ∧ (Ordered t ↔ SinksOnce q) ∧
      SameStore q t ∧ t.size = q.size - 1 ∧
      ∀ i, i < t.size → ∃ j, j < q.size ∧ t.slots i = q.slots j := by
  have hsmall := hv.size_small
  have hle := hv.le
  obtain ⟨all, hrun, hl, hiff, hstored⟩ := pop_spec hc ho hv.fits ha hpos (by omega)
  refine ⟨_, hrun, ⟨hv.stride, ?_, (hv.fits.shrink (Nat.sub_le _ 1)).of_length hl, ?_⟩, hiff,
    ⟨rfl, rfl, fun _ => hl⟩, rfl, hstored⟩
  · show q.size - 1 ≤ q.cap
    omega
  · intro hd
    obtain ⟨hown, hbytes⟩ := hv.owned hd
    exact ⟨hl.trans hown, hbytes⟩

theorem pop_empty {q : PQueue} (a : Alloc) (h : q.size = 0) : pop a q = .ok (none, q) := by
  simp [pop, h]

/-! ### Whole runs -/

/-- The state of a run in order that began with `first`. -/
structure Kept (first q : PQueue) : Prop where
  valid : Valid q
  ordered : Ordered q
  same : SameStore first q

theorem SameStore.trans {q s t : PQueue} (h : SameStore q s) (h' : SameStore s t) :
    SameStore q t :=
  ⟨h'.cmp.trans h.cmp, h'.dynamic.trans h.dynamic,
    fun hd => (h'.static (h.dynamic.trans hd)).trans (h.static hd)⟩

theorem step_kept {first : PQueue} (hc : TotalPreorder first.cmp) (q : PQueue) (op : Op)
    (h : Kept first q) (hsafe : OrderSafe q op) :
    ∃ o t, step q op = .ok (o, t) ∧ Delivers q op o t ∧ Kept first t := by
  obtain ⟨hv, ho, hs⟩ := h
  rw [← hs.cmp] at hc
  cases op with
  | push data fresh =>
    obtain ⟨ok, t, hrun, hvt, hot, hsame⟩ := push_valid hc hv ho hsafe
    exact ⟨.pushed ok, t, by simp [step, hrun], fun h => by simp at h, hvt, hot, hs.trans hsame⟩
  | pop =>
    by_cases h0 : q.size = 0
    · exact ⟨.popped none, q, by simp [step, pop_empty _ h0], fun _ => Or.inl ⟨h0, rfl⟩, hv, ho, hs⟩
    · obtain ⟨t, hrun, hvt, hot, hsame, _⟩ :=
        pop_valid (a := ⟨true, none⟩) hc hv ho rfl (Nat.pos_of_ne_zero h0)
      exact ⟨.popped (some (q.slots 0)), t, by simp [step, hrun],
        fun _ => Or.inr ⟨_, rfl, ⟨0, Nat.pos_of_ne_zero h0, rfl⟩, least_root hc ho⟩,
        hvt, hot.2 hsafe, hs.trans hsame⟩

/-- Popping in order: what comes out is sorted, and not before anything that
was not after every stored element. -/
theorem drain_sorted {first : PQueue} (hc : TotalPreorder first.cmp) :
    ∀ (k : Nat) (q : PQueue), Kept first q → Machine.Meets step OrderSafe q (List.replicate k .pop) →
      ∃ xs u, Machine.exec step q (List.replicate k .pop) = .ok (xs, u) ∧
        (xs.filterMap Out.item).length = min k q.size ∧
        (xs.filterMap Out.item).Pairwise (fun x y => first.cmp x y ≤ 0) ∧
        ∀ x, (∀ i, i < q.size → first.cmp x (q.slots i) ≤ 0) →
          ∀ y ∈ xs.filterMap Out.item, first.cmp x y ≤ 0 := by
  intro k
  induction k with
  | zero =>
    intro q _ _
    exact ⟨[], q, rfl, by simp, List.Pairwise.nil, by simp⟩
  | succ k ih =>
    intro q hk hm
    obtain ⟨hv, ho, hs⟩ := hk
    rw [List.replicate_succ] at hm ⊢
    by_cases h0 : q.size = 0
    · have hrun : step q .pop = .ok (.popped none, q) := by simp [step, pop_empty _ h0]
      obtain ⟨xs, u, hexec, hlen, hsorted, hlow⟩ := ih q ⟨hv, ho, hs⟩ (hm.2 _ _ hrun)
      refine ⟨.popped none :: xs, u, Machine.exec_cons hrun hexec, ?_, ?_, ?_⟩ <;>
        simp only [List.filterMap_cons, Out.item]
      · omega
      · exact hsorted
      · exact hlow
    · have hq : TotalPreorder q.cmp := hs.cmp ▸ hc
      obtain ⟨t, hpop, hvt, hot, hsame, hsize, hstored⟩ :=
        pop_valid (a := ⟨true, none⟩) hq hv ho rfl (Nat.pos_of_ne_zero h0)
      have hrun : step q .pop = .ok (.popped (some (q.slots 0)), t) := by simp [step, hpop]
      obtain ⟨xs, u, hexec, hlen, hsorted, hlow⟩ :=
        ih t ⟨hvt, hot.2 hm.1, hs.trans hsame⟩ (hm.2 _ _ hrun)
      have below : ∀ x, (∀ i, i < q.size → first.cmp x (q.slots i) ≤ 0) →
          ∀ y ∈ xs.filterMap Out.item, first.cmp x y ≤ 0 := by
        intro x hx
        apply hlow x
        intro i hi
        obtain ⟨j, hj, heq⟩ := hstored i hi
        rw [heq]
        exact hx j hj
      have root := DHeap.Ordered.root_min hq ho
      rw [hs.cmp] at root
      refine ⟨.popped (some (q.slots 0)) :: xs, u, Machine.exec_cons hrun hexec, ?_, ?_, ?_⟩
      · simp only [List.filterMap_cons, Out.item, List.length_cons, hlen, hsize]
        omega
      · simp only [List.filterMap_cons, Out.item, List.pairwise_cons]
        exact ⟨below _ root, hsorted⟩
      · simp only [List.filterMap_cons, Out.item, List.mem_cons]
        rintro x hx y (rfl | hy)
        · exact hx 0 (Nat.pos_of_ne_zero h0)
        · exact below x hx y hy

theorem orderKept_of_safe {q : PQueue} (hc : TotalPreorder q.cmp) (h : Kept q q) {ops : List Op}
    (safe : DrainSafe q ops) : OrderKept q ops := by
  intro pre hpre k
  have hm := safe pre hpre k
  refine ⟨Machine.along_of_meets (fun s hs => inOrder_of_ordered (hs.same.cmp ▸ hc) hs.ordered)
    (step_kept hc) h hm, ?_⟩
  obtain ⟨os, t, hrun, ht⟩ := Machine.exec_of_meets
    (fun s op hs hsafe => by
      obtain ⟨o, t, hrun, _, ht⟩ := step_kept hc s op hs hsafe
      exact ⟨o, t, hrun, ht⟩) h (Machine.meets_left hm)
  obtain ⟨xs, u, hpops, hlen, hsorted, _⟩ := drain_sorted hc k t ht (Machine.meets_append hm hrun)
  exact ⟨os, t, xs, u, hrun, hpops, hlen, hsorted⟩

/-! ### Only such runs -/

theorem append_needs {q : PQueue} {a : Alloc} {data : Item} {r : Bool × PQueue}
    (h : append a q data = .ok r) (hsmall : q.size * q.itemSize < 2 ^ 32) :
    q.itemSize ≤ data.length ∧ q.size * q.itemSize + q.itemSize ≤ q.all.length := by
  by_cases hd : q.itemSize ≤ data.length
  · refine ⟨hd, Nat.le_of_not_lt fun hshort => ?_⟩
    have hitem : (read data 0 q.itemSize).length = q.itemSize := read_length (by omega)
    have : store q.all (offset q.itemSize q.size) (read data 0 q.itemSize) = .error .bounds :=
      store_bounds (by rw [offset, u32_of_lt hsmall, hitem]; exact hshort)
    simp [append, load_ok (show 0 + q.itemSize ≤ data.length by omega), this] at h
  · simp [append, load, hd] at h

/-- A push that returns had a whole element and room for it, and grew, if it
did, without a wrap. -/
theorem push_needs {q : PQueue} (hv : Valid q)
    (hshort : q.isDynamic = true ∨ q.all.length < 2 ^ 32) {data : Item} {fresh : Nat → UInt8}
    {r : Bool × PQueue} (h : push ⟨true, some fresh⟩ q data = .ok r) :
    OrderSafe q (.push data fresh) := by
  have hpos := hv.stride
  refine ⟨fun hfull hd => ?_, fun hlt => ?_⟩
  · obtain ⟨hown, hsmall⟩ := hv.owned hd
    rw [push_full hv hfull hd] at h
    obtain ⟨hdata, hroom⟩ := append_needs h (by show q.size * q.itemSize < _; rw [hfull]; omega)
    refine ⟨hdata, Nat.lt_of_not_le fun hwrap => ?_⟩
    -- the wrapped byte count leaves less than the old storage
    simp only [realloc_length, hfull] at hroom
    simp only [growth] at hwrap hroom
    split at hwrap
    · omega
    · rename_i hcap
      simp only [hcap, ↓reduceIte, u32] at hroom
      have hdouble : q.cap * 2 * q.itemSize = 2 * (q.cap * q.itemSize) := by
        rw [Nat.mul_right_comm, Nat.mul_comm]
      rw [hdouble] at hwrap hroom
      omega
  · have hne : q.size ≠ q.cap := by omega
    simp only [push, hne, ↓reduceIte] at h
    have hmul : (q.size + 1) * q.itemSize = q.size * q.itemSize + q.itemSize := Nat.succ_mul ..
    have hroom := hv.fits.room
    have hbytes : q.all.length < 2 ^ 32 := by
      rcases hshort with hd | hs
      · obtain ⟨hown, hsmall⟩ := hv.owned hd
        omega
      · exact hs
    obtain ⟨hdata, hend⟩ := append_needs h (by omega)
    exact ⟨hdata, by omega, by omega⟩

theorem meets_of_inOrder {q : PQueue} (hc : TotalPreorder q.cmp) (h : Kept q q)
    (hshort : q.isDynamic = true ∨ q.all.length < 2 ^ 32) {ops : List Op}
    (along : Machine.Along step InOrder Delivers q ops) : Machine.Meets step OrderSafe q ops := by
  refine Machine.meets_of_along (I := Kept q) ?_ h along
  intro s op o t hs hstep hin
  have hsafe : OrderSafe s op := by
    cases op with
    | push data fresh =>
      cases hrun : push ⟨true, some fresh⟩ s data with
      | error e => simp [step, hrun] at hstep
      | ok r =>
        refine push_needs hs.valid ?_ hrun
        rcases hshort with hd | hlen
        · exact Or.inl (hs.same.dynamic.trans hd)
        · cases hd : q.isDynamic with
          | true => exact Or.inl (hs.same.dynamic.trans hd)
          | false => exact Or.inr (hs.same.static hd ▸ hlen)
    | pop =>
      by_cases h0 : s.size = 0
      · exact sinksOnce_of_small (by omega)
      · obtain ⟨u, hrun, _, hiff, _⟩ := pop_valid (a := ⟨true, none⟩) (hs.same.cmp ▸ hc) hs.valid
          hs.ordered rfl (Nat.pos_of_ne_zero h0)
        obtain ⟨_, rfl⟩ : Out.popped (some (s.slots 0)) = o ∧ u = t := by
          simpa [step, hrun] using hstep
        exact hiff.1 hin.1
  obtain ⟨o', t', hrun, _, ht⟩ := step_kept hc s op hs hsafe
  obtain ⟨rfl, rfl⟩ : o' = o ∧ t' = t := by simpa [hrun] using hstep
  exact ⟨hsafe, ht⟩

/-- An empty queue as one of the two initialisers makes it. -/
def Initial (type : Nat) (cmp : Item → Item → Int) (q : PQueue) : Prop :=
  q = init type cmp ∨ ∃ buf cap, q = initS type buf cap cmp

theorem Initial.kept {type : Nat} {cmp : Item → Item → Int} {q : PQueue}
    (h : Initial type cmp q) (htype : 1 ≤ type ∧ type ≤ 512) : q.cmp = cmp ∧ Kept q q := by
  have hstride : 4 ≤ stride type ∧ stride type ≤ 512 := by
    simp only [stride]
    omega
  have empty (f : Nat → Item) : DHeap.Ordered 4 cmp f 0 := fun i _ hi => by omega
  rcases h with rfl | ⟨buf, cap, rfl⟩
  · refine ⟨rfl, ⟨hstride, Nat.le_refl 0, ⟨?_, ?_, ?_⟩, fun _ => ⟨?_, ?_⟩⟩, empty _, rfl, rfl,
      fun _ => rfl⟩ <;> simp only [init, List.length_nil, Nat.zero_mul] <;> omega
  · refine ⟨rfl, ⟨hstride, Nat.zero_le _, ⟨?_, ?_, ?_⟩, fun h => by simp [initS] at h⟩, empty _,
      rfl, rfl, fun _ => rfl⟩ <;> simp only [initS, Nat.zero_mul] <;> omega

/-- **Which runs keep the heap order.** From an empty queue, a run keeps the 4-ary
heap order, delivers least elements and drains sorted from each queue that it
reaches, if its steps and those of every such drain are `OrderSafe`; and apart from
caller storage of `2^32` bytes and more, no other run does. -/
theorem order_kept_iff {cmp : Item → Item → Int} (hc : TotalPreorder cmp) {type : Nat}
    (htype : 1 ≤ type ∧ type ≤ 512) {q : PQueue} (hq : Initial type cmp q) (ops : List Op) :
    (DrainSafe q ops → OrderKept q ops) ∧
    (q.all.length < 2 ^ 32 → OrderKept q ops → DrainSafe q ops) := by
  obtain ⟨rfl, hk⟩ := hq.kept htype
  refine ⟨orderKept_of_safe hc hk, fun hlen kept pre hpre k => ?_⟩
  exact meets_of_inOrder hc hk (Or.inr hlen) (kept pre hpre k).1

/-! ### Few elements -/

theorem siftDown_size {a : Alloc} {q t : PQueue} {idx : Nat} (h : siftDown a q idx = .ok t) :
    t.size = q.size := by
  unfold siftDown at h
  split at h
  · simp at h
  · obtain ⟨tmp, -, h⟩ := ok_of_bind h
    obtain ⟨⟨all, hole⟩, -, h⟩ := ok_of_bind h
    obtain ⟨all', -, h⟩ := ok_of_bind h
    cases h
    rfl

theorem step_pop_size {q t : PQueue} {o : Out} (h : step q .pop = .ok (o, t)) :
    t.size ≤ q.size := by
  obtain ⟨⟨out, u⟩, hpop, h⟩ := ok_of_bind h
  cases h
  by_cases empty : q.size = 0
  · rw [pop_empty _ empty] at hpop
    cases hpop
    exact Nat.le_refl _
  · simp only [pop, empty, ↓reduceIte] at hpop
    obtain ⟨first, -, hpop⟩ := ok_of_bind hpop
    split at hpop
    · obtain ⟨last, -, hpop⟩ := ok_of_bind hpop
      obtain ⟨all, -, hpop⟩ := ok_of_bind hpop
      obtain ⟨r, hdown, hpop⟩ := ok_of_bind hpop
      cases hpop
      rw [siftDown_size hdown]
      exact Nat.sub_le _ _
    · cases hpop
      exact Nat.sub_le _ _

/-- The last of at most six elements never has to move down by two levels. -/
theorem pops_safe {q : PQueue} (few : q.size ≤ 6) (k : Nat) :
    Machine.Meets step OrderSafe q (List.replicate k Op.pop) := by
  induction k generalizing q with
  | zero => trivial
  | succ k ih =>
    refine ⟨sinksOnce_of_small few, fun o t hrun => ih ?_⟩
    exact Nat.le_trans (step_pop_size hrun) few

theorem drainSafe_nil {q : PQueue} (few : q.size ≤ 6) : DrainSafe q [] := by
  intro pre hpre k
  obtain rfl := List.prefix_nil.1 hpre
  exact pops_safe few k

theorem drainSafe_cons {q t : PQueue} {op : Op} {ops : List Op} {o : Out} (few : q.size ≤ 6)
    (hrun : step q op = .ok (o, t)) (safe : OrderSafe q op) (rest : DrainSafe t ops) :
    DrainSafe q (op :: ops) := by
  intro pre hpre k
  cases pre with
  | nil => exact pops_safe few k
  | cons op' pre =>
    obtain ⟨rfl, later⟩ := List.cons_prefix_cons.1 hpre
    exact Machine.meets_cons hrun safe (rest pre later k)

/-- A comparator of elements by their first byte. -/
def byFirstByte : Item → Item → Int :=
  fun x y => ((x.headD 0).toNat : Int) - ((y.headD 0).toNat : Int)

theorem byFirstByte_preorder : TotalPreorder byFirstByte :=
  TotalPreorder.ofKey (fun x : Item => ((x.headD 0).toNat : Int))

def pushing (values : List UInt8) : List Op :=
  values.map (fun v => Op.push [v, 0, 0, 0] (fun _ => 0))

theorem order_kept_two : OrderKept (init 4 byFirstByte) (pushing [7, 3] ++ [Op.pop]) :=
  (order_kept_iff byFirstByte_preorder (show 1 ≤ 4 ∧ 4 ≤ 512 by decide) (Or.inl rfl) _).1
    (drainSafe_cons (by decide) rfl ⟨fun _ _ => by decide, fun h => absurd h (by decide)⟩
      (drainSafe_cons (by decide) rfl ⟨fun h => absurd h (by decide), fun _ => by decide⟩
        (drainSafe_cons (by decide) rfl (sinksOnce_of_small (by decide))
          (drainSafe_nil (by decide)))))

/-- The elements that `k` pops deliver after the operations `pre`. -/
def popsAfter (q : PQueue) (pre : List Op) (k : Nat) : Except Fault (List Item) := do
  let (_, t) ← Machine.exec step q pre
  let (xs, _) ← Machine.exec step t (List.replicate k Op.pop)
  .ok (xs.filterMap Out.item)

/-- Eight pushes, and four pops that drain the queue they reach: the first pop leaves 9 above 2,
and the third delivers 4 while 2 is still stored. -/
theorem stale_hole_breaks_order :
    popsAfter (init 4 byFirstByte) (pushing [0, 1, 4, 10, 11, 2, 8, 9]) 4 =
      .ok [[0, 0, 0, 0], [1, 0, 0, 0], [4, 0, 0, 0], [2, 0, 0, 0]] ∧
    ¬ OrderKept (init 4 byFirstByte) (pushing [0, 1, 4, 10, 11, 2, 8, 9]) := by
  have hrun : popsAfter (init 4 byFirstByte) (pushing [0, 1, 4, 10, 11, 2, 8, 9]) 4 =
      .ok [[0, 0, 0, 0], [1, 0, 0, 0], [4, 0, 0, 0], [2, 0, 0, 0]] := by decide
  refine ⟨hrun, fun h => ?_⟩
  obtain ⟨os, t, xs, u, hpre, hpops, _, hsorted⟩ := (h _ (List.prefix_refl _) 4).2
  simp only [popsAfter, hpre, hpops, ok_bind, Except.ok.injEq] at hrun
  rw [hrun] at hsorted
  revert hsorted
  decide

end Coter.PQueue
