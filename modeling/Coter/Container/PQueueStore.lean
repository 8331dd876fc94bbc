import Coter.Container.PQueueOrder

/-!
# What the priority queue stores

The sifts shift elements through a hole and write the saved one back at the end.
Whatever the comparator answers, this loses and duplicates nothing.

* `siftUp_store`, `siftDown_store`: the sifts keep the stored elements;
* `step_store`: what one call adds and takes;
* `stored_runs`: whole runs of pushes, pops and reserves.
-/

namespace Coter.PQueue

open Function (update)
open Lib Lib.Blocks

variable {w n : Nat} {all : List UInt8}

/-- The elements stored, in the order of their slots. -/
def stored (q : PQueue) : List Item := DHeap.elements q.slots q.size

/-! ## The sifts -/

theorem siftUpLoop_store (cmp : Item → Item → Int) (tmp : Item) {fuel idx : Nat}
    (hf : Fits w n all) (hidx : idx < n) (hfuel : idx < fuel) :
    ∃ all' hole, siftUpLoop cmp w fuel all idx tmp = .ok (all', hole) ∧
      all'.length = all.length ∧ hole < n ∧
      (DHeap.elements (update (slot w all') hole tmp) n).Perm
        (DHeap.elements (update (slot w all) idx tmp) n) := by
  induction fuel generalizing all idx with
  | zero => omega
  | succ fuel ih =>
    rw [siftUpLoop]
    by_cases hpos : 0 < idx
    · have up : (idx - 1) / 4 < idx := DHeap.parent_lt (d := 4) hpos
      have above : (idx - 1) / 4 < n := by omega
      simp only [hpos, ↓reduceIte, load_slot hf above, ok_bind]
      by_cases hstop : 0 ≤ cmp tmp (slot w all ((idx - 1) / 4))
      · simp only [hstop, ↓reduceIte]
        exact ⟨all, idx, rfl, rfl, hidx, List.Perm.refl _⟩
      · obtain ⟨all₁, hst, hl, hs⟩ := store_slot hf hidx (slot_width hf above)
        obtain ⟨all₂, hole, hrun, hl₂, hh, kept⟩ := ih (hf.of_length hl) above (by omega)
        simp only [hstop, ↓reduceIte, hst, ok_bind]
        refine ⟨all₂, hole, hrun, hl₂.trans hl, hh, kept.trans ?_⟩
        rw [hs]
        exact DHeap.elements_move hidx above (by omega) tmp
    · simp only [hpos, ↓reduceIte]
      exact ⟨all, idx, rfl, rfl, hidx, List.Perm.refl _⟩

theorem siftDownLoop_store (cmp : Item → Item → Int) (tmp : Item) {fuel idx : Nat}
    (hf : Fits w n all) (hidx : idx < n) (hsmall : 4 * n < 2 ^ 32) (hfuel : n - idx < fuel) :
    ∃ all' hole, siftDownLoop cmp w n fuel all idx tmp = .ok (all', hole) ∧
      all'.length = all.length ∧ hole < n ∧
      (DHeap.elements (update (slot w all') hole tmp) n).Perm
        (DHeap.elements (update (slot w all) idx tmp) n) := by
  induction fuel generalizing all idx with
  | zero => omega
  | succ fuel ih =>
    rw [siftDownLoop, smallestChild_spec cmp hf hidx (by omega), ok_bind]
    have place := DHeap.leastChild_place 4 cmp (slot w all) n idx
    generalize DHeap.leastChild 4 cmp (slot w all) n idx = s at place ⊢
    by_cases hstay : s = idx
    · simp only [hstay, ↓reduceIte]
      exact ⟨all, idx, rfl, rfl, hidx, List.Perm.refl _⟩
    · obtain ⟨below, inside⟩ := place.resolve_left hstay
      simp only [hstay, ↓reduceIte, load_slot hf inside, ok_bind]
      by_cases hstop : cmp tmp (slot w all s) ≤ 0
      · simp only [hstop, ↓reduceIte]
        exact ⟨all, idx, rfl, rfl, hidx, List.Perm.refl _⟩
      · obtain ⟨all₁, hst, hl, hs⟩ := store_slot hf hidx (slot_width hf inside)
        obtain ⟨all₂, hole, hrun, hl₂, hh, kept⟩ := ih (hf.of_length hl) inside (by omega)
        simp only [hstop, ↓reduceIte, hst, ok_bind]
        refine ⟨all₂, hole, hrun, hl₂.trans hl, hh, kept.trans ?_⟩
        rw [hs]
        exact DHeap.elements_move hidx inside hstay tmp

/-- What a sift leaves of the storage of a queue. -/
structure Sifted (q : PQueue) (all : List UInt8) : Prop where
  length : all.length = q.all.length
  kept : (DHeap.elements (slot q.itemSize all) q.size).Perm q.stored

theorem siftUp_store {q : PQueue} {a : Alloc} (ha : a.scratch = true)
    (hf : Fits q.itemSize q.size q.all) {idx : Nat} (hidx : idx < q.size) :
    ∃ all, siftUp a q idx = .ok { q with all } ∧ Sifted q all := by
  obtain ⟨all₁, hole, hrun, hl, hh, kept⟩ := siftUpLoop_store q.cmp
    (slot q.itemSize q.all idx) hf hidx (Nat.lt_succ_self idx)
  obtain ⟨all₂, hst, hl₂, hs⟩ := store_slot (hf.of_length hl) hh (slot_width hf hidx)
  refine ⟨all₂, ?_, hl₂.trans hl, ?_⟩
  · simp only [siftUp, ha, Bool.not_true, Bool.false_eq_true, ↓reduceIte, load_slot hf hidx,
      ok_bind, hrun, hst]
  · rw [Function.update_eq_self] at kept
    rw [hs]
    exact kept

theorem siftDown_store {q : PQueue} {a : Alloc} (ha : a.scratch = true)
    (hf : Fits q.itemSize q.size q.all) (hsmall : 4 * q.size < 2 ^ 32) {idx : Nat}
    (hidx : idx < q.size) : ∃ all, siftDown a q idx = .ok { q with all } ∧ Sifted q all := by
  obtain ⟨all₁, hole, hrun, hl, hh, kept⟩ := siftDownLoop_store q.cmp
    (slot q.itemSize q.all idx) hf hidx hsmall (show q.size - idx < q.size + 1 by omega)
  obtain ⟨all₂, hst, hl₂, hs⟩ := store_slot (hf.of_length hl) hh (slot_width hf hidx)
  refine ⟨all₂, ?_, hl₂.trans hl, ?_⟩
  · simp only [siftDown, ha, Bool.not_true, Bool.false_eq_true, ↓reduceIte, load_slot hf hidx,
      ok_bind, hrun, hst]
  · rw [Function.update_eq_self] at kept
    rw [hs]
    exact kept

/-! ## The calls -/

/-- A call with what the allocator answers during it. -/
inductive Call
  | push (data : Item) (a : Alloc)
  | pop (a : Alloc)
  | reserve (newCap : Nat) (a : Alloc)

def Call.alloc : Call → Alloc
  | .push _ a | .pop a | .reserve _ a => a

inductive Reply
  | pushed (ok : Bool)
  | popped (out : Option Item)
  | reserved (ok : Bool)

def call (q : PQueue) : Call → Except Fault (Reply × PQueue)
  | .push data a => do
    let (ok, q) ← push a q data
    .ok (.pushed ok, q)
  | .pop a => do
    let (out, q) ← pop a q
    .ok (.popped out, q)
  | .reserve newCap a =>
    let (ok, q) := reserve a q newCap
    .ok (.reserved ok, q)

/-- The storage holds the whole capacity, and no offset in it wraps. -/
structure Room (q : PQueue) : Prop where
  stride : 4 ≤ q.itemSize
  le : q.size ≤ q.cap
  room : q.cap * q.itemSize ≤ q.all.length
  small : q.cap * q.itemSize ≤ 2 ^ 32
  owned : q.isDynamic = true → q.all.length = q.cap * q.itemSize

/-- The byte count of a capacity that is asked for: below `2^32` where it is granted; and where
it is refused, it does not wrap to 0 while there is storage to free. -/
def Sized (q : PQueue) (newCap : Nat) (a : Alloc) : Prop :=
  (a.grown.isSome → newCap * q.itemSize < 2 ^ 32) ∧
  (a.grown.isNone → 0 < q.cap → u32 (newCap * q.itemSize) ≠ 0)

instance (q : PQueue) (newCap : Nat) (a : Alloc) : Decidable (Sized q newCap a) :=
  inferInstanceAs (Decidable ((a.grown.isSome → newCap * q.itemSize < 2 ^ 32) ∧
    (a.grown.isNone → 0 < q.cap → u32 (newCap * q.itemSize) ≠ 0)))

/-- The element a push copies lies in the caller's memory, and the byte count of a capacity
that is asked for does not wrap. -/
def Unwrapped (q : PQueue) : Call → Prop
  | .push data a => q.itemSize ≤ data.length ∧
      (q.size = q.cap → q.isDynamic = true → Sized q (growth q) a)
  | .pop _ => True
  | .reserve newCap a => q.isDynamic = true → q.cap < newCap → Sized q newCap a

instance (q : PQueue) : (c : Call) → Decidable (Unwrapped q c)
  | .push data a => inferInstanceAs (Decidable (q.itemSize ≤ data.length ∧ (q.size = q.cap →
      q.isDynamic = true → Sized q (growth q) a)))
  | .pop _ => isTrue trivial
  | .reserve newCap a => inferInstanceAs (Decidable (q.isDynamic = true → q.cap < newCap →
      Sized q newCap a))

/-- A scratch element that `malloc` did not grant: the sifts write to `NULL`. -/
def NoScratch (c : Call) (e : Fault) : Prop := e = .null ∧ c.alloc.scratch = false

/-- The elements a call adds. -/
def given (w : Nat) : Call → Reply → List Item
  | .push data _, .pushed true => [read data 0 w]
  | _, _ => []

/-- The elements a call takes out. -/
def taken : Reply → List Item
  | .popped (some x) => [x]
  | _ => []

/-- What one call does to the stored elements. -/
structure Stores (q : PQueue) (c : Call) (r : Reply) (t : PQueue) : Prop where
  balance : (taken r ++ t.stored).Perm (q.stored ++ given q.itemSize c r)
  popped : ∀ x, r = .popped (some x) → x ∈ q.stored
  refused : r = .pushed false → t = q
  empty : r = .popped none ↔ (∃ a, c = .pop a) ∧ q.size = 0
  untouched : r = .popped none → t = q
  width : t.itemSize = q.itemSize

theorem Room.fits {q : PQueue} (h : Room q) {n : Nat} (hn : n ≤ q.cap) :
    Fits q.itemSize n q.all := by
  have bytes := Nat.mul_le_mul_right q.itemSize hn
  have := h.stride
  exact ⟨by omega, Nat.le_trans bytes h.room, Nat.le_trans bytes h.small⟩

theorem Room.size_small {q : PQueue} (h : Room q) : 4 * q.size ≤ 2 ^ 32 := by
  have := Nat.mul_le_mul h.le h.stride
  have := h.small
  omega

theorem Room.sifted {q : PQueue} (h : Room q) {all : List UInt8} {n : Nat} (hn : n ≤ q.cap)
    (length : all.length = q.all.length) : Room { q with all, size := n } :=
  ⟨h.stride, hn, length ▸ h.room, h.small, fun hd => length ▸ h.owned hd⟩

/-- A request that is refused changes nothing, unless it frees the storage. -/
theorem reserve_refused {q : PQueue} (hd : q.isDynamic = true) {a : Alloc} (hg : a.grown = none)
    {m : Nat} (more : q.cap < m) (empty : q.cap = 0 → q.all = []) (sized : Sized q m a) :
    reserve a q m = (false, q) := by
  have less : ¬ m ≤ q.cap := by omega
  simp only [reserve, hd, hg, less, Bool.not_true, Bool.false_eq_true, ↓reduceIte]
  split
  · rename_i wraps
    have none_held : q.all = [] := by
      by_contra held
      have pos : 0 < q.cap := Nat.pos_of_ne_zero fun zero => held (empty zero)
      exact sized.2 (by simp [hg]) pos wraps
    rw [← none_held, ← hd]
  · rfl

theorem Room.empty {q : PQueue} (h : Room q) (hd : q.isDynamic = true) (zero : q.cap = 0) :
    q.all = [] := by
  have bytes := h.owned hd
  rw [zero, Nat.zero_mul] at bytes
  exact List.eq_nil_of_length_eq_zero bytes

/-- `ct_pqueue_reserve` keeps the elements; where it fails, it changes nothing. -/
theorem reserve_store {q : PQueue} (h : Room q) (a : Alloc) {m : Nat}
    (bytes : q.isDynamic = true → q.cap < m → Sized q m a) :
    ∃ ok r, reserve a q m = (ok, r) ∧ Room r ∧ r.stored = q.stored ∧ r.size = q.size ∧
      r.itemSize = q.itemSize ∧ (ok = false → r = q) ∧ (ok = true → m ≤ r.cap) := by
  cases hd : q.isDynamic with
  | false => exact ⟨false, q, by simp [reserve, hd], h, rfl, rfl, rfl, fun _ => rfl, by simp⟩
  | true =>
    by_cases enough : m ≤ q.cap
    · refine ⟨true, q, ?_, h, rfl, rfl, rfl, fun _ => rfl, fun _ => enough⟩
      simp only [reserve, hd, Bool.not_true, Bool.false_eq_true, ↓reduceIte, enough]
    · have sized := bytes hd (by omega)
      cases hg : a.grown with
      | none =>
        exact ⟨false, q, reserve_refused hd hg (by omega) (h.empty hd) sized, h, rfl, rfl, rfl,
          fun _ => rfl, by simp⟩
      | some fresh =>
        have small : m * q.itemSize < 2 ^ 32 := sized.1 (by simp [hg])
        have more : q.cap * q.itemSize ≤ m * q.itemSize := Nat.mul_le_mul_right _ (by omega)
        have length := realloc_length q.all (m * q.itemSize) fresh
        have le := h.le
        refine ⟨true, { q with all := realloc q.all (m * q.itemSize) fresh, cap := m }, ?_,
          ⟨h.stride, by show q.size ≤ m; omega, Nat.le_of_eq length.symm, Nat.le_of_lt small,
            fun _ => length⟩, ?_, rfl, rfl, by simp, fun _ => Nat.le_refl m⟩
        · simp only [reserve, hd, hg, Bool.not_true, Bool.false_eq_true, ↓reduceIte, enough,
            u32_of_lt small]
        · apply DHeap.elements_congr
          intro i hi
          have inside := slot_end (w := q.itemSize) (Nat.lt_of_lt_of_le hi h.le)
          exact slot_realloc fresh (Nat.le_trans inside h.room) (by rw [h.owned hd]; exact more)

theorem append_store {q : PQueue} (h : Room q) (a : Alloc) (hlt : q.size < q.cap) {data : Item}
    (hdata : q.itemSize ≤ data.length) :
    (append a q data = .error .null ∧ a.scratch = false) ∨
      ∃ t, append a q data = .ok (true, t) ∧ Room t ∧ t.itemSize = q.itemSize ∧
        t.stored.Perm (q.stored ++ [read data 0 q.itemSize]) := by
  have hf := h.fits (Nat.succ_le_of_lt hlt)
  have small := h.size_small
  have cap := Nat.mul_le_mul_left q.cap h.stride
  have bytes := h.small
  have count : u32 (q.size + 1) = q.size + 1 := u32_of_lt (by omega)
  have hitem : (read data 0 q.itemSize).length = q.itemSize := read_length (by omega)
  obtain ⟨all₁, hst, hl, hs⟩ := store_slot hf (Nat.lt_succ_self q.size) hitem
  have copied : append a q data = (siftUp a { q with all := all₁, size := q.size + 1 } q.size >>=
      fun q => .ok (true, q)) := by
    simp only [append, load_ok (show 0 + q.itemSize ≤ data.length by omega), ok_bind, hst, count]
  rw [copied]
  cases ha : a.scratch with
  | false =>
    left
    simp [siftUp, ha]
  | true =>
    right
    obtain ⟨all₂, hup, sifted⟩ := siftUp_store (q := { q with all := all₁, size := q.size + 1 }) ha
      (hf.of_length hl) (Nat.lt_succ_self q.size)
    rw [hup]
    refine ⟨{ q with all := all₂, size := q.size + 1 }, rfl, h.sifted hlt (sifted.length.trans hl),
      rfl, sifted.kept.trans ?_⟩
    rw [stored, DHeap.elements_succ, stored]
    have last : slot q.itemSize all₁ q.size = read data 0 q.itemSize := by
      rw [hs, Function.update_self]
    have others : DHeap.elements (slot q.itemSize all₁) q.size =
        DHeap.elements q.slots q.size := by
      apply DHeap.elements_congr
      intro i hi
      rw [hs, Function.update_of_ne (by omega)]
      rfl
    rw [slots, last, others]

theorem Room.nextCap {q : PQueue} (h : Room q) : q.nextCap = growth q := by
  have cap := Nat.mul_le_mul_left q.cap h.stride
  have bytes := h.small
  simp only [PQueue.nextCap, growth]
  split
  · rfl
  · exact u32_of_lt (by omega)

theorem push_store {q : PQueue} (h : Room q) {data : Item} {a : Alloc}
    (hc : Unwrapped q (.push data a)) :
    (∃ e, push a q data = .error e ∧ NoScratch (.push data a) e) ∨
      ∃ ok t, push a q data = .ok (ok, t) ∧ Room t ∧ Stores q (.push data a) (.pushed ok) t := by
  obtain ⟨hdata, hgrow⟩ := hc
  have added {t : PQueue} (width : t.itemSize = q.itemSize)
      (balance : t.stored.Perm (q.stored ++ [read data 0 q.itemSize])) :
      Stores q (.push data a) (.pushed true) t :=
    ⟨balance, by simp, by simp, by simp, by simp, width⟩
  have kept : Stores q (.push data a) (.pushed false) q :=
    ⟨by simp [taken, given], by simp, by simp, by simp, by simp, rfl⟩
  by_cases full : q.size = q.cap
  · cases hd : q.isDynamic with
    | false => exact Or.inr ⟨false, q, by simp [push, full, hd], h, kept⟩
    | true =>
      obtain ⟨ok, r, hr, room, same, size, width, refused, granted⟩ := reserve_store h a
        (m := growth q) fun hd _ => hgrow full hd
      rw [← h.nextCap] at hr
      cases ok with
      | false =>
        obtain rfl := refused rfl
        exact Or.inr ⟨false, r, by simp [push, full, hd, hr], h, kept⟩
      | true =>
        have wide := granted rfl
        have more := cap_lt_growth q
        have grew : push a q data = append a r data := by simp [push, full, hd, hr]
        rw [grew]
        rcases append_store room a (by omega) (by rwa [width]) with
          ⟨fault, no⟩ | ⟨t, hrun, ht, width', balance⟩
        · exact Or.inl ⟨.null, fault, rfl, no⟩
        · rw [same, width] at balance
          exact Or.inr ⟨true, t, hrun, ht, added (width'.trans width) balance⟩
  · have room : q.size < q.cap := Nat.lt_of_le_of_ne h.le full
    have same : push a q data = append a q data := by simp only [push, full, ↓reduceIte]
    rw [same]
    rcases append_store h a room hdata with ⟨fault, no⟩ | ⟨t, hrun, ht, width, balance⟩
    · exact Or.inl ⟨.null, fault, rfl, no⟩
    · exact Or.inr ⟨true, t, hrun, ht, added width balance⟩

theorem pop_store {q : PQueue} (h : Room q) (a : Alloc) :
    (∃ e, pop a q = .error e ∧ NoScratch (.pop a) e) ∨
      ∃ out t, pop a q = .ok (out, t) ∧ Room t ∧ Stores q (.pop a) (.popped out) t := by
  by_cases empty : q.size = 0
  · exact Or.inr ⟨none, q, by simp [pop, empty], h, by simp [taken, given], by simp, by simp,
      by simp [empty], by simp, rfl⟩
  · obtain ⟨n, hn⟩ : ∃ n, q.size = n + 1 := ⟨q.size - 1, by omega⟩
    have le := h.le
    have small := h.size_small
    have hf := h.fits h.le
    have zero : offset q.itemSize 0 = 0 := by simp [offset, u32]
    have root : load q.all 0 q.itemSize = .ok (q.slots 0) := by
      have := load_slot hf (show 0 < q.size by omega)
      rwa [zero] at this
    have first : q.slots 0 ∈ q.stored := DHeap.mem_elements.2 ⟨0, by omega, rfl⟩
    have out {t : PQueue} (width : t.itemSize = q.itemSize)
        (balance : (q.slots 0 :: t.stored).Perm q.stored) :
        Stores q (.pop a) (.popped (some (q.slots 0))) t := by
      refine ⟨by simpa [taken, given] using balance, ?_, by simp, by simp [empty], by simp, width⟩
      intro x hx
      cases hx
      exact first
    have split := DHeap.elements_take q.slots n
    rw [← hn] at split
    by_cases one : n = 0
    · subst one
      refine Or.inr ⟨some (q.slots 0), { q with size := 0 }, ?_, h.sifted (Nat.zero_le _) rfl,
        out rfl split⟩
      simp [pop, hn, root]
    · have hn0 : 0 < n := by omega
      have hwidth : (q.slots n).length = q.itemSize := slot_width hf (by omega)
      obtain ⟨all₁, hst, hl, hs⟩ := store_slot hf (show 0 < q.size by omega) hwidth
      rw [zero] at hst
      have reached : pop a q = (siftDown a { q with all := all₁, size := n } 0 >>=
          fun q' => .ok (some (q.slots 0), q')) := by
        simp only [pop, hn, Nat.succ_ne_zero, ↓reduceIte, root, ok_bind, Nat.add_sub_cancel, hn0,
          load_slot hf (show n < q.size by omega)]
        rw [show store q.all 0 (slot q.itemSize q.all n) = .ok all₁ from hst, ok_bind]
      rw [reached]
      cases ha : a.scratch with
      | false =>
        refine Or.inl ⟨.null, by simp [siftDown, ha], rfl, ha⟩
      | true =>
        obtain ⟨all₂, hdown, sifted⟩ := siftDown_store (q := { q with all := all₁, size := n }) ha
          ((hf.shrink (show n ≤ q.size by omega)).of_length hl) (by show 4 * n < _; omega) hn0
        rw [hdown]
        refine Or.inr ⟨some (q.slots 0), { q with all := all₂, size := n }, rfl,
          h.sifted (by omega) (sifted.length.trans hl), out rfl ?_⟩
        have mid : stored { q with all := all₁, size := n } =
            DHeap.elements (update q.slots 0 (q.slots n)) n := congrArg (DHeap.elements · n) hs
        refine (sifted.kept.cons _).trans ?_
        rw [mid]
        exact split

/-- One call: it adds what it accepts and takes what it delivers, or it stops at a
scratch element that was not granted. -/
theorem step_store {q : PQueue} (h : Room q) (c : Call) (hc : Unwrapped q c) :
    (∃ e, call q c = .error e ∧ NoScratch c e) ∨
      ∃ r t, call q c = .ok (r, t) ∧ Stores q c r t ∧ Room t := by
  cases c with
  | push data a =>
    rcases push_store h hc with ⟨e, fault, no⟩ | ⟨ok, t, hrun, ht, stores⟩
    · exact Or.inl ⟨e, by simp [call, fault], no⟩
    · exact Or.inr ⟨.pushed ok, t, by simp [call, hrun], stores, ht⟩
  | pop a =>
    rcases pop_store h a with ⟨e, fault, no⟩ | ⟨out, t, hrun, ht, stores⟩
    · exact Or.inl ⟨e, by simp [call, fault], no⟩
    · exact Or.inr ⟨.popped out, t, by simp [call, hrun], stores, ht⟩
  | reserve newCap a =>
    obtain ⟨ok, t, hrun, ht, same, _, width, _, _⟩ := reserve_store h a hc
    refine Or.inr ⟨.reserved ok, t, by simp [call, hrun], ?_, ht⟩
    exact ⟨by simp [taken, given, same], by simp, by simp, by simp, by simp, width⟩

/-! ## Runs -/

/-- The elements of the pushes that were accepted. -/
def pushed (w : Nat) : List Call → List Reply → List Item
  | c :: cs, r :: rs => given w c r ++ pushed w cs rs
  | _, _ => []

/-- The elements that were popped. -/
def popped (rs : List Reply) : List Item := rs.flatMap taken

/-- What is stored and what was popped is what was stored before and what was pushed. -/
theorem run_balance {q t : PQueue} {calls : List Call} {replies : List Reply} (h : Room q)
    (hc : Machine.Meets call Unwrapped q calls)
    (hrun : Machine.exec call q calls = .ok (replies, t)) :
    (popped replies ++ t.stored).Perm (q.stored ++ pushed q.itemSize calls replies) := by
  induction calls generalizing q replies with
  | nil =>
    obtain ⟨rfl, rfl⟩ : [] = replies ∧ q = t := by simpa [Machine.exec] using hrun
    simp [popped, pushed]
  | cons c calls ih =>
    rcases step_store h c hc.1 with ⟨e, fault, _⟩ | ⟨r, s, hs, stores, hroom⟩
    · simp [Machine.exec, fault] at hrun
    · cases hrest : Machine.exec call s calls with
      | error e => simp [Machine.exec, hs, hrest] at hrun
      | ok rest =>
        obtain ⟨rs, u⟩ := rest
        obtain ⟨rfl, rfl⟩ : r :: rs = replies ∧ u = t := by
          simpa [Machine.exec, hs, hrest] using hrun
        have later := ih hroom (hc.2 r s hs) hrest
        rw [stores.width] at later
        have here := stores.balance
        calc
          List.Perm (taken r ++ popped rs ++ u.stored)
              (taken r ++ (s.stored ++ pushed q.itemSize calls rs)) := by
            rw [List.append_assoc]
            exact later.append_left _
          List.Perm _ (q.stored ++ given q.itemSize c r ++ pushed q.itemSize calls rs) := by
            rw [← List.append_assoc]
            exact here.append_right _
          List.Perm _ (q.stored ++ pushed q.itemSize (c :: calls) (r :: rs)) := by
            rw [List.append_assoc]
            exact List.Perm.refl _

/-- An empty queue as one of the two initialisers makes it, over storage for the
whole capacity and below `2^32` bytes. -/
def Starts (type : Nat) (cmp : Item → Item → Int) (q : PQueue) : Prop :=
  q = init type cmp ∨ ∃ buf cap, q = initS type buf cap cmp ∧ cap * stride type ≤ buf.length ∧
    cap * stride type ≤ 2 ^ 32

theorem Starts.room {type : Nat} {cmp : Item → Item → Int} {q : PQueue}
    (h : Starts type cmp q) (htype : 1 ≤ type) :
    Room q ∧ q.stored = [] := by
  have hstride : 4 ≤ stride type := by
    simp only [stride]
    omega
  rcases h with rfl | ⟨buf, cap, rfl, bytes, small⟩
  · exact ⟨⟨hstride, Nat.le_refl 0, by simp [init], by simp [init], by simp [init]⟩, rfl⟩
  · have fewer := Nat.mul_le_mul_left cap hstride
    have same : u32 cap = cap := u32_of_lt (by omega)
    refine ⟨⟨hstride, Nat.zero_le _, ?_, ?_, by simp [initS]⟩, rfl⟩
    · simpa only [initS, same] using bytes
    · simpa only [initS, same] using small

/-- **The stored elements of a run.** Whatever the comparator, on storage whose
byte offsets do not wrap: no call reads or writes outside the storage or sifts
forever, each call adds what it accepts and takes what it delivers, and at the end
what was popped and what is stored is what was pushed. -/
theorem stored_runs {type : Nat} (htype : 1 ≤ type ∧ type ≤ 512) (cmp : Item → Item → Int)
    {q : PQueue} (hq : Starts type cmp q) (calls : List Call)
    (hc : Machine.Meets call Unwrapped q calls) :
    Machine.AlongUnless call NoScratch Room Stores q calls ∧
    ∀ replies t, Machine.exec call q calls = .ok (replies, t) →
      (popped replies ++ t.stored).Perm (pushed q.itemSize calls replies) := by
  obtain ⟨room, empty⟩ := hq.room htype.1
  constructor
  · exact Machine.alongUnless_of_meets (fun _ h => h) (fun s c h hc => step_store h c hc) room hc
  · intro replies t hrun
    have balance := run_balance room hc hrun
    rwa [empty] at balance

theorem stored_runs_two :
    Machine.AlongUnless call NoScratch Room Stores (init 4 fun _ _ => 1)
      [.push [7, 0, 0, 0] ⟨true, some fun _ => 0⟩, .reserve 9 ⟨true, none⟩, .pop ⟨true, none⟩] :=
  (stored_runs (show 1 ≤ 4 ∧ 4 ≤ 512 by decide) (fun _ _ => 1) (Or.inl rfl) _ (by decide)).1

end Coter.PQueue
