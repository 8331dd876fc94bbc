import Coter.Container.PQueueStore

/-!
# Where the priority queue reads and writes

The accesses of a run, whatever the comparator answers and however large the
queue is. A sift down of more than `2^30` elements can wrap its child index and
go round; its loop is cut short after a number of turns, and the results hold for
every number.

* `append_held`, `popFor_held`: inside a storage that holds the whole capacity;
* `confined_iff`: the queues over caller storage that stay in it;
* `accounted_iff`: the runs of a growing queue whose storage matches its capacity.
-/

namespace Coter.PQueue

open Lib Lib.Blocks

/-! ## The calls with a bounded sift -/

/-- `pqueue_sift_down`, its loop cut short after `turns` turns. -/
def siftDownFor (turns : Nat) (a : Alloc) (q : PQueue) (idx : Nat) : Except Fault PQueue := do
  if !a.scratch then .error .null
  else do
    let tmp ← load q.all (offset q.itemSize idx) q.itemSize
    let (all, hole) ← siftDownLoop q.cmp q.itemSize q.size turns q.all idx tmp
    let all ← store all (offset q.itemSize hole) tmp
    .ok { q with all }

/-- The first element, where the caller of `ct_pqueue_pop` gave an `out` for it. -/
def copyOut (q : PQueue) (out : Bool) : Except Fault (Option Item) :=
  if out then some <$> load q.all 0 q.itemSize else .ok none

/-- `ct_pqueue_pop`: what it returns and what it copies to `out`. -/
def popFor (turns : Nat) (a : Alloc) (q : PQueue) (out : Bool) :
    Except Fault (Bool × Option Item × PQueue) :=
  if q.size = 0 then .ok (false, none, q)
  else do
    let copy ← copyOut q out
    let size := q.size - 1
    if 0 < size then do
      let last ← load q.all (offset q.itemSize size) q.itemSize
      let all ← store q.all 0 last
      let q ← siftDownFor turns a { q with all, size } 0
      .ok (true, copy, q)
    else .ok (true, copy, { q with size })

theorem siftDown_eq (a : Alloc) (q : PQueue) (idx : Nat) :
    siftDown a q idx = siftDownFor (q.size + 1) a q idx := rfl

/-- `pop` copies out and allows as many turns as the queue has elements. -/
theorem pop_eq (a : Alloc) (q : PQueue) :
    pop a q = (popFor q.size a q true >>= fun r => .ok r.2) := by
  by_cases empty : q.size = 0
  · simp [pop, popFor, empty]
  · have turns : q.size - 1 + 1 = q.size := by omega
    simp only [pop, popFor, empty, ↓reduceIte, siftDown_eq, turns, copyOut]
    cases load q.all 0 q.itemSize with
    | error e => rfl
    | ok out =>
      by_cases more : 0 < q.size - 1
      · simp only [ok_bind, more, ↓reduceIte, Except.map_ok, bind_assoc]
      · simp only [ok_bind, more, ↓reduceIte, Except.map_ok]

inductive Act
  | push (data : Item) (a : Alloc)
  | pop (out : Bool) (a : Alloc)
  | top
  | clear
  | reserve (newCap : Nat) (a : Alloc)

/-- Whether the scratch element of the call is granted. -/
def Act.scratch : Act → Bool
  | .push _ a | .pop _ a | .reserve _ a => a.scratch
  | .top | .clear => true

def Act.isPush : Act → Bool
  | .push _ _ => true
  | _ => false

inductive Answer
  | pushed (ok : Bool)
  | popped (ok : Bool) (out : Option Item)
  | topped (out : Option Item)
  | cleared
  | reserved (ok : Bool)

def act (turns : Nat) (q : PQueue) : Act → Except Fault (Answer × PQueue)
  | .push data a => do
    let (ok, q) ← push a q data
    .ok (.pushed ok, q)
  | .pop out a => do
    let (ok, copy, q) ← popFor turns a q out
    .ok (.popped ok copy, q)
  | .top => .ok (.topped (top q), q)
  | .clear => .ok (.cleared, clear q)
  | .reserve newCap a =>
    let (ok, q) := reserve a q newCap
    .ok (.reserved ok, q)

/-- What is read or written through the caller's element pointers, and what the
caller finds behind the pointer of `ct_pqueue_top`. -/
def copied (w : Nat) : Act → Answer → List Item
  | .push data _, .pushed true => [read data 0 w]
  | _, .popped _ (some x) => [x]
  | _, .topped (some x) => [x]
  | _, _ => []

/-- What may end a run other than a stray access: a scratch element that was not
granted, or the last turn of a sift. -/
def Stops (op : Act) (e : Fault) : Prop := e = .fuel ∨ e = .null ∧ op.scratch = false

/-! ## Inside the storage -/

variable {w n : Nat} {all : List UInt8}

/-- An offset that wraps lies before the slot it is meant for. -/
theorem offset_le (w i : Nat) : offset w i ≤ i * w := Nat.mod_le _ _

theorem offset_end (room : n * w ≤ all.length) {i : Nat} (hi : i < n) :
    offset w i + w ≤ all.length := by
  have inside : i * w + w ≤ n * w := slot_end hi
  have := offset_le w i
  omega

theorem load_held (room : n * w ≤ all.length) {i : Nat} (hi : i < n) :
    ∃ b, load all (offset w i) w = .ok b ∧ b.length = w :=
  ⟨_, load_ok (offset_end room hi), read_length (offset_end room hi)⟩

theorem store_held (room : n * w ≤ all.length) {i : Nat} (hi : i < n) {b : Item}
    (hb : b.length = w) :
    ∃ all', store all (offset w i) b = .ok all' ∧ all'.length = all.length := by
  have inside : offset w i + b.length ≤ all.length := by
    rw [hb]
    exact offset_end room hi
  exact ⟨_, store_ok inside, write_length inside⟩

theorem siftUpLoop_held (cmp : Item → Item → Int) (tmp : Item) {fuel idx : Nat}
    (room : n * w ≤ all.length) (hidx : idx < n) (hfuel : idx < fuel) :
    ∃ all' hole, siftUpLoop cmp w fuel all idx tmp = .ok (all', hole) ∧
      all'.length = all.length ∧ hole < n := by
  induction fuel generalizing all idx with
  | zero => omega
  | succ fuel ih =>
    rw [siftUpLoop]
    by_cases hpos : 0 < idx
    · obtain ⟨above, hload, hwidth⟩ := load_held room (show (idx - 1) / 4 < n by omega)
      simp only [hpos, ↓reduceIte, hload, ok_bind]
      by_cases hstop : 0 ≤ cmp tmp above
      · simp only [hstop, ↓reduceIte]
        exact ⟨all, idx, rfl, rfl, hidx⟩
      · obtain ⟨all₁, hst, hl⟩ := store_held room hidx hwidth
        obtain ⟨all₂, hole, hrun, hl₂, hh⟩ := ih (show n * w ≤ all₁.length by rwa [hl])
          (show (idx - 1) / 4 < n by omega) (by omega)
        simp only [hstop, ↓reduceIte, hst, ok_bind]
        exact ⟨all₂, hole, hrun, hl₂.trans hl, hh⟩
    · simp only [hpos, ↓reduceIte]
      exact ⟨all, idx, rfl, rfl, hidx⟩

theorem smallestStep_held (cmp : Item → Item → Int) (room : n * w ≤ all.length) (idx i : Nat)
    {smallest : Nat} (hs : smallest < n) :
    ∃ s, smallestStep cmp w n all idx smallest i = .ok s ∧ s < n := by
  unfold smallestStep
  by_cases last : n ≤ u32 (4 * idx + i)
  · simp only [last, ↓reduceIte]
    exact ⟨smallest, rfl, hs⟩
  · have inside : u32 (4 * idx + i) < n := Nat.not_le.1 last
    obtain ⟨c, hc, -⟩ := load_held room inside
    obtain ⟨x, hx, -⟩ := load_held room hs
    simp only [last, ↓reduceIte, hc, hx, ok_bind]
    refine ⟨_, rfl, ?_⟩
    split
    · exact inside
    · exact hs

theorem smallestChild_held (cmp : Item → Item → Int) (room : n * w ≤ all.length) {idx : Nat}
    (hidx : idx < n) : ∃ s, smallestChild cmp w n all idx = .ok s ∧ s < n := by
  have scan : ∀ (l : List Nat) (s : Nat), s < n →
      ∃ s', l.foldlM (smallestStep cmp w n all idx) s = .ok s' ∧ s' < n := by
    intro l
    induction l with
    | nil => intro s hs; exact ⟨s, rfl, hs⟩
    | cons i l ih =>
      intro s hs
      obtain ⟨s₁, hstep, hs₁⟩ := smallestStep_held cmp room idx i hs
      rw [List.foldlM_cons, hstep, ok_bind]
      exact ih s₁ hs₁
  exact scan [1, 2, 3, 4] idx hidx

/-- However often the loop turns, also with a child index that wraps. -/
theorem siftDownLoop_held (cmp : Item → Item → Int) (tmp : Item) (turns : Nat) {idx : Nat}
    (room : n * w ≤ all.length) (hidx : idx < n) :
    siftDownLoop cmp w n turns all idx tmp = .error .fuel ∨
      ∃ all' hole, siftDownLoop cmp w n turns all idx tmp = .ok (all', hole) ∧
        all'.length = all.length ∧ hole < n := by
  induction turns generalizing all idx with
  | zero => exact Or.inl rfl
  | succ turns ih =>
    obtain ⟨s, hscan, hs⟩ := smallestChild_held cmp room hidx
    rw [siftDownLoop, hscan, ok_bind]
    by_cases hstay : s = idx
    · simp only [hstay, ↓reduceIte]
      exact Or.inr ⟨all, idx, rfl, rfl, hidx⟩
    · obtain ⟨x, hload, hwidth⟩ := load_held room hs
      simp only [hstay, ↓reduceIte, hload, ok_bind]
      by_cases hstop : cmp tmp x ≤ 0
      · simp only [hstop, ↓reduceIte]
        exact Or.inr ⟨all, idx, rfl, rfl, hidx⟩
      · obtain ⟨all₁, hst, hl⟩ := store_held room hidx hwidth
        simp only [hstop, ↓reduceIte, hst, ok_bind]
        rcases ih (show n * w ≤ all₁.length by rwa [hl]) hs with cut | ⟨all₂, hole, hrun, hl₂, hh⟩
        · exact Or.inl cut
        · exact Or.inr ⟨all₂, hole, hrun, hl₂.trans hl, hh⟩

theorem siftUp_held {q : PQueue} (a : Alloc) (room : q.size * q.itemSize ≤ q.all.length)
    {idx : Nat} (hidx : idx < q.size) :
    (siftUp a q idx = .error .null ∧ a.scratch = false) ∨
      ∃ all, siftUp a q idx = .ok { q with all } ∧ all.length = q.all.length := by
  unfold siftUp
  cases ha : a.scratch with
  | false => exact Or.inl ⟨rfl, rfl⟩
  | true =>
    obtain ⟨tmp, hload, hwidth⟩ := load_held room hidx
    obtain ⟨all₁, hole, hrun, hl, hh⟩ := siftUpLoop_held q.cmp tmp room hidx
      (Nat.lt_succ_self idx)
    rw [← hl] at room
    obtain ⟨all₂, hst, hl₂⟩ := store_held room hh hwidth
    right
    refine ⟨all₂, ?_, hl₂.trans hl⟩
    simp only [Bool.not_true, Bool.false_eq_true, ↓reduceIte, hload, ok_bind, hrun, hst]

theorem siftDownFor_held {q : PQueue} (turns : Nat) (a : Alloc)
    (room : q.size * q.itemSize ≤ q.all.length) {idx : Nat} (hidx : idx < q.size) :
    (siftDownFor turns a q idx = .error .null ∧ a.scratch = false) ∨
      siftDownFor turns a q idx = .error .fuel ∨
      ∃ all, siftDownFor turns a q idx = .ok { q with all } ∧ all.length = q.all.length := by
  unfold siftDownFor
  cases ha : a.scratch with
  | false => exact Or.inl ⟨rfl, rfl⟩
  | true =>
    right
    obtain ⟨tmp, hload, hwidth⟩ := load_held room hidx
    simp only [Bool.not_true, Bool.false_eq_true, ↓reduceIte, hload, ok_bind]
    rcases siftDownLoop_held q.cmp tmp turns room hidx with cut | ⟨all₁, hole, hrun, hl, hh⟩
    · exact Or.inl (by rw [cut]; rfl)
    · rw [← hl] at room
      obtain ⟨all₂, hst, hl₂⟩ := store_held room hh hwidth
      right
      refine ⟨all₂, ?_, hl₂.trans hl⟩
      simp only [hrun, ok_bind, hst]

/-- The storage holds the whole capacity, wrapped offsets or not. -/
structure Held (q : PQueue) : Prop where
  le : q.size ≤ q.cap
  small : q.cap < 2 ^ 32
  room : q.cap * q.itemSize ≤ q.all.length

/-- A call that stays in the storage it found. -/
structure Stays (q t : PQueue) : Prop where
  le : t.size ≤ q.cap
  cap : t.cap = q.cap
  width : t.itemSize = q.itemSize
  bytes : t.all.length = q.all.length
  dynamic : t.isDynamic = q.isDynamic

theorem Held.room_of_le {q : PQueue} (h : Held q) {n : Nat} (hn : n ≤ q.cap) :
    n * q.itemSize ≤ q.all.length :=
  Nat.le_trans (Nat.mul_le_mul_right _ hn) h.room

theorem Held.stays {q t : PQueue} (h : Held q) (ht : Stays q t) : Held t := by
  refine ⟨?_, ?_, ?_⟩
  · rw [ht.cap]
    exact ht.le
  · rw [ht.cap]
    exact h.small
  · rw [ht.cap, ht.width, ht.bytes]
    exact h.room

theorem append_held {q : PQueue} (h : Held q) (a : Alloc) (hlt : q.size < q.cap) {data : Item}
    (hdata : q.itemSize ≤ data.length) :
    (append a q data = .error .null ∧ a.scratch = false) ∨
      ∃ t, append a q data = .ok (true, t) ∧ Stays q t := by
  have room : (q.size + 1) * q.itemSize ≤ q.all.length := h.room_of_le hlt
  have count : u32 (q.size + 1) = q.size + 1 := u32_of_lt (Nat.lt_of_le_of_lt hlt h.small)
  have hitem : (read data 0 q.itemSize).length = q.itemSize := read_length (by omega)
  obtain ⟨all₁, hst, hl⟩ := store_held room (Nat.lt_succ_self q.size) hitem
  have copied : append a q data = (siftUp a { q with all := all₁, size := q.size + 1 } q.size >>=
      fun q => .ok (true, q)) := by
    simp only [append, load_ok (show 0 + q.itemSize ≤ data.length by omega), ok_bind, hst, count]
  rw [copied]
  rcases siftUp_held (q := { q with all := all₁, size := q.size + 1 }) a (by rwa [hl])
    (Nat.lt_succ_self q.size) with ⟨fault, no⟩ | ⟨all₂, hup, hl₂⟩
  · left
    rw [fault]
    exact ⟨rfl, no⟩
  · right
    rw [hup]
    exact ⟨_, rfl, hlt, rfl, rfl, hl₂.trans hl, rfl⟩

/-- A push that reads past the end of the caller's element. -/
theorem append_short {q : PQueue} (a : Alloc) {data : Item} (short : data.length < q.itemSize) :
    append a q data = .error .bounds := by
  simp [append, load, show ¬ q.itemSize ≤ data.length by omega]

theorem popFor_held {q : PQueue} (h : Held q) (turns : Nat) (a : Alloc) (out : Bool) :
    (∃ e, popFor turns a q out = .error e ∧ Stops (.pop out a) e) ∨
      ∃ ok copy t, popFor turns a q out = .ok (ok, copy, t) ∧ Stays q t ∧
        ∀ x, copy = some x → x.length = q.itemSize := by
  have le := h.le
  by_cases empty : q.size = 0
  · exact Or.inr ⟨false, none, q, by simp [popFor, empty], ⟨le, rfl, rfl, rfl, rfl⟩, by simp⟩
  · have room := h.room_of_le le
    have zero : offset q.itemSize 0 = 0 := by simp [offset, u32]
    obtain ⟨root, hroot, hwidth⟩ := load_held room (Nat.pos_of_ne_zero empty)
    rw [zero] at hroot
    obtain ⟨copy, hcopy, hx⟩ : ∃ copy, copyOut q out = .ok copy ∧
        ∀ x, copy = some x → x.length = q.itemSize := by
      cases out with
      | false => exact ⟨none, rfl, by simp⟩
      | true =>
        refine ⟨some root, by simp [copyOut, hroot], ?_⟩
        rintro x ⟨⟩
        exact hwidth
    by_cases more : 0 < q.size - 1
    · obtain ⟨last, hlast, hlength⟩ := load_held room (show q.size - 1 < q.size by omega)
      obtain ⟨all₁, hst, hl⟩ := store_held room (Nat.pos_of_ne_zero empty) hlength
      rw [zero] at hst
      have reached : popFor turns a q out =
          (siftDownFor turns a { q with all := all₁, size := q.size - 1 } 0 >>=
            fun q => .ok (true, copy, q)) := by
        simp only [popFor, empty, ↓reduceIte, hcopy, ok_bind, more, hlast, hst]
      rw [reached]
      have room₁ := h.room_of_le (show q.size - 1 ≤ q.cap by omega)
      rcases siftDownFor_held (q := { q with all := all₁, size := q.size - 1 }) turns a
        (by rwa [hl]) more with ⟨fault, no⟩ | cut | ⟨all₂, hdown, hl₂⟩
      · exact Or.inl ⟨.null, by rw [fault]; rfl, Or.inr ⟨rfl, no⟩⟩
      · exact Or.inl ⟨.fuel, by rw [cut]; rfl, Or.inl rfl⟩
      · rw [hdown]
        exact Or.inr ⟨true, copy, _, rfl, ⟨by show q.size - 1 ≤ q.cap; omega, rfl, rfl,
          hl₂.trans hl, rfl⟩, hx⟩
    · refine Or.inr ⟨true, copy, { q with size := q.size - 1 }, ?_,
        ⟨by show q.size - 1 ≤ q.cap; omega, rfl, rfl, rfl, rfl⟩, hx⟩
      simp only [popFor, empty, ↓reduceIte, hcopy, ok_bind, more]

theorem top_held {q : PQueue} (h : Held q) {x : Item} (hx : top q = some x) :
    x.length = q.itemSize := by
  simp only [top] at hx
  split at hx
  · cases hx
  · rename_i some
    obtain rfl := Option.some.inj hx
    have := h.room_of_le (Nat.le_trans (Nat.pos_of_ne_zero some) h.le)
    exact read_length (by omega)

/-- A call that has no room to ask for. -/
def Settled (q : PQueue) : Act → Prop
  | .push _ _ => q.size = q.cap → q.isDynamic = false
  | .reserve newCap _ => q.cap < newCap → q.isDynamic = false
  | _ => True

/-- Every access of the call lies in the storage, and what it copies has the size of
an element. -/
theorem act_held {q : PQueue} (h : Held q) (turns : Nat) {op : Act} (hop : Settled q op)
    (whole : ∀ data a, op = .push data a → q.itemSize ≤ data.length) :
    (∃ e, act turns q op = .error e ∧ Stops op e) ∨
      ∃ r t, act turns q op = .ok (r, t) ∧ Stays q t ∧
        ∀ x ∈ copied q.itemSize op r, x.length = q.itemSize := by
  have same : Stays q q := ⟨h.le, rfl, rfl, rfl, rfl⟩
  cases op with
  | push data a =>
    have hdata := whole data a rfl
    by_cases full : q.size = q.cap
    · have static := hop full
      exact Or.inr ⟨.pushed false, q, by simp [act, push, full, static], same, by simp [copied]⟩
    · have reached : push a q data = append a q data := by simp only [push, full, ↓reduceIte]
      rcases append_held h a (Nat.lt_of_le_of_ne h.le full) hdata with ⟨fault, no⟩ | ⟨t, hrun, ht⟩
      · exact Or.inl ⟨.null, by simp [act, reached, fault], Or.inr ⟨rfl, no⟩⟩
      · refine Or.inr ⟨.pushed true, t, by simp [act, reached, hrun], ht, ?_⟩
        simp only [copied, List.mem_singleton, forall_eq]
        exact read_length (by omega)
  | pop out a =>
    rcases popFor_held h turns a out with ⟨e, fault, stops⟩ | ⟨ok, copy, t, hrun, ht, hx⟩
    · exact Or.inl ⟨e, by simp [act, fault], stops⟩
    · refine Or.inr ⟨.popped ok copy, t, by simp [act, hrun], ht, ?_⟩
      cases copy with
      | none => simp [copied]
      | some x => simpa [copied] using hx x rfl
  | top =>
    refine Or.inr ⟨.topped (top q), q, rfl, same, ?_⟩
    cases hx : top q with
    | none => simp [copied]
    | some x => simpa [copied] using top_held h hx
  | clear =>
    exact Or.inr ⟨.cleared, clear q, rfl, ⟨Nat.zero_le _, rfl, rfl, rfl, rfl⟩, by simp [copied]⟩
  | reserve newCap a =>
    have reached : ∃ ok, reserve a q newCap = (ok, q) := by
      by_cases less : q.cap < newCap
      · exact ⟨false, by simp [reserve, hop less]⟩
      · cases hd : q.isDynamic with
        | false => exact ⟨false, by simp [reserve, hd]⟩
        | true => exact ⟨true, by simp [reserve, hd, Nat.not_lt.1 less]⟩
    obtain ⟨ok, hrun⟩ := reached
    exact Or.inr ⟨.reserved ok, q, by simp [act, hrun], same, by simp [copied]⟩

/-! ## Queues over caller storage -/

/-- A run that touches only the `bytes` bytes of the storage, and exactly `s` bytes
behind every element pointer. -/
def Confined (turns s bytes : Nat) : PQueue → List Act → Prop :=
  Machine.AlongUnless (act turns) Stops (fun q => q.all.length = bytes)
    (fun q op r _ => ∀ x ∈ copied q.itemSize op r, x.length = s)

theorem stride_eq_iff {s : Nat} : stride s = s ↔ 4 ∣ s := by
  simp only [stride]
  omega

theorem lt_stride {s : Nat} (h : ¬ 4 ∣ s) : s < stride s := by
  simp only [stride]
  omega

/-- A queue over caller storage that has no element and takes none. -/
structure Idle (c bytes : Nat) (q : PQueue) : Prop where
  empty : q.size = 0
  cap : q.cap = c
  static : q.isDynamic = false
  bytes : q.all.length = bytes

theorem idle_step {c bytes : Nat} {q : PQueue} (h : Idle c bytes q) (turns : Nat) {op : Act}
    (hop : op.isPush = true → c = 0) :
    ∃ r t, act turns q op = .ok (r, t) ∧ copied q.itemSize op r = [] ∧ Idle c bytes t ∧
      t.itemSize = q.itemSize := by
  cases op with
  | push data a =>
    have full : q.size = q.cap := by rw [h.empty, h.cap, hop rfl]
    exact ⟨.pushed false, q, by simp [act, push, full, h.static], rfl, h, rfl⟩
  | pop out a => exact ⟨.popped false none, q, by simp [act, popFor, h.empty], rfl, h, rfl⟩
  | top => exact ⟨.topped none, q, by simp [act, top, h.empty], rfl, h, rfl⟩
  | clear => exact ⟨.cleared, clear q, rfl, rfl, ⟨rfl, h.cap, h.static, h.bytes⟩, rfl⟩
  | reserve newCap a =>
    exact ⟨.reserved false, q, by simp [act, reserve, h.static], rfl, h, rfl⟩

theorem not_confined_of_bounds {s bytes turns : Nat} {q : PQueue} {op : Act} {acts : List Act}
    (fault : act turns q op = .error .bounds) : ¬ Confined turns s bytes q (op :: acts) := by
  rintro ⟨_, ⟨e, he, excused⟩ | ⟨o, t, hs, -⟩⟩
  · rw [fault] at he
    obtain rfl := Except.error.inj he
    simp [Stops] at excused
  · rw [fault] at hs
    cases hs

/-- The first push over storage for at least one element, with a stride larger than
the element. -/
theorem not_confined_of_push {c s bytes turns : Nat} {acts : List Act} {q : PQueue}
    (h : Idle c bytes q) (hc : c ≠ 0) (wide : s < q.itemSize)
    (whole : ∀ data a, .push data a ∈ acts → data.length = s)
    (pushes : ∃ op ∈ acts, op.isPush = true) : ¬ Confined turns s bytes q acts := by
  induction acts generalizing q with
  | nil =>
    obtain ⟨op, hop, _⟩ := pushes
    cases hop
  | cons op acts ih =>
    by_cases hpush : op.isPush = true
    · cases op with
      | push data a =>
        have length := whole data a (List.mem_cons_self ..)
        have fault : act turns q (.push data a) = .error .bounds := by
          simp [act, push, h.empty, h.cap, Ne.symm hc, append_short a (length ▸ wide)]
        exact not_confined_of_bounds fault
      | _ => cases hpush
    · rintro ⟨_, run⟩
      have hop : op.isPush = true → c = 0 := fun h => absurd h hpush
      obtain ⟨r, t, hrun, -, ht, same⟩ := idle_step h turns hop
      rcases run with ⟨e, he, -⟩ | ⟨o, t', hs, -, hrest⟩
      · rw [hrun] at he
        cases he
      · obtain ⟨rfl, rfl⟩ : r = o ∧ t = t' := by simpa [hrun] using hs
        refine ih ht (by rwa [same]) (fun data a hm => whole data a (List.mem_cons_of_mem _ hm)) ?_
          hrest
        obtain ⟨op', hmem, hp⟩ := pushes
        rcases List.mem_cons.1 hmem with rfl | later
        · exact absurd hp hpush
        · exact ⟨op', later, hp⟩

/-- A queue whose stride is the size of its elements. -/
theorem confined_of_dvd {s cap turns : Nat} {buf : List UInt8} (hbuf : buf.length = cap * s)
    (cmp : Item → Item → Int) {acts : List Act}
    (whole : ∀ data a, .push data a ∈ acts → data.length = s) (hs : 4 ∣ s) :
    Confined turns s (cap * s) (initS s buf cap cmp) acts := by
  let I : PQueue → Prop := fun q =>
    Held q ∧ q.isDynamic = false ∧ q.itemSize = s ∧ q.all.length = cap * s
  let C : Act → Prop := fun op => ∀ data a, op = .push data a → data.length = s
  have meets : Machine.Meets (act turns) (fun _ => C) (initS s buf cap cmp) acts := by
    apply Machine.meets_of_forall
    rintro op hop data a rfl
    exact whole data a hop
  have start : I (initS s buf cap cmp) := by
    have width : stride s = s := stride_eq_iff.2 hs
    have fewer : u32 cap ≤ cap := Nat.mod_le _ _
    refine ⟨⟨Nat.zero_le _, u32_lt cap, ?_⟩, rfl, width, hbuf⟩
    show u32 cap * stride s ≤ buf.length
    rw [width, hbuf]
    exact Nat.mul_le_mul_right s fewer
  refine Machine.alongUnless_of_meets (I := I) (C := fun _ => C) (fun q h => h.2.2.2) ?_ start meets
  rintro q op ⟨held, static, width, bytes⟩ hC
  have settled : Settled q op := by
    cases op with
    | push data a => exact fun _ => static
    | reserve newCap a => exact fun _ => static
    | _ => trivial
  rcases act_held held turns settled (fun data a h => by rw [width, hC data a h]) with
    fault | ⟨r, t, hrun, ht, hx⟩
  · exact Or.inl fault
  · refine Or.inr ⟨r, t, hrun, ?_, held.stays ht, ?_, ?_, ?_⟩
    · rwa [← width]
    · rw [ht.dynamic, static]
    · rw [ht.width, width]
    · rw [ht.bytes, bytes]

theorem confined_of_idle {s c bytes turns : Nat} {q : PQueue} (h : Idle c bytes q)
    {acts : List Act} (hacts : ∀ op ∈ acts, op.isPush = true → c = 0) :
    Confined turns s bytes q acts := by
  refine Machine.alongUnless_of_meets (I := Idle c bytes)
    (C := fun _ op => op.isPush = true → c = 0) (fun q h => h.bytes) ?_ h
    (Machine.meets_of_forall _ hacts)
  intro q op hq hop
  obtain ⟨r, t, hrun, none, ht, -⟩ := idle_step hq turns hop
  exact Or.inr ⟨r, t, hrun, by simp [none], ht⟩

/-- **Storage of a static queue.** Over storage of `cap * s` bytes and with elements
of `s` bytes, a run stays in the storage and copies whole elements exactly if the
size needs no rounding, or the queue has no capacity, or nothing is pushed. -/
theorem confined_iff {s cap : Nat} {buf : List UInt8} (hbuf : buf.length = cap * s)
    (cmp : Item → Item → Int) (turns : Nat) {acts : List Act}
    (whole : ∀ data a, .push data a ∈ acts → data.length = s) :
    Confined turns s (cap * s) (initS s buf cap cmp) acts ↔
      4 ∣ s ∨ u32 cap = 0 ∨ ∀ op ∈ acts, op.isPush = false := by
  have idle : Idle (u32 cap) (cap * s) (initS s buf cap cmp) := ⟨rfl, rfl, rfl, hbuf⟩
  constructor
  · intro run
    by_contra miss
    simp only [not_or, not_forall, Bool.not_eq_false] at miss
    obtain ⟨rounds, some, op, hop, hpush⟩ := miss
    exact not_confined_of_push idle some (lt_stride rounds) whole ⟨op, hop, hpush⟩ run
  · rintro (exact | none | quiet)
    · exact confined_of_dvd hbuf cmp whole exact
    · exact confined_of_idle idle fun _ _ _ => none
    · exact confined_of_idle idle fun op hop hpush => by simp [quiet op hop] at hpush

theorem confined_iff_two :
    Confined 2 4 (2 * 4) (initS 4 (List.replicate 8 0) 2 fun _ _ => 0)
      [.push [7, 0, 0, 0] ⟨true, none⟩, .top, .pop true ⟨true, none⟩] := by
  have whole : ∀ data a, .push data a ∈ [Act.push [7, 0, 0, 0] ⟨true, none⟩, .top,
      .pop true ⟨true, none⟩] → data.length = 4 := by
    intro data a h
    simp only [List.mem_cons, Act.push.injEq, reduceCtorEq, List.not_mem_nil, or_false] at h
    rw [h.1]
    rfl
  exact (confined_iff (show (List.replicate 8 (0 : UInt8)).length = 2 * 4 from rfl) _ 2 whole).2
    (Or.inl (by decide))

/-- One byte of storage for one element of one byte: the first push copies four. -/
theorem push_one_byte : act 1 (initS 1 [0] 1 fun _ _ => 0) (.push [7] ⟨true, none⟩) =
      .error .bounds ∧
    ¬ Confined 1 1 (1 * 1) (initS 1 [0] 1 fun _ _ => 0) [.push [7] ⟨true, none⟩] := by
  have fault : act 1 (initS 1 [0] 1 fun _ _ => 0) (.push [7] ⟨true, none⟩) = .error .bounds := rfl
  exact ⟨fault, not_confined_of_bounds fault⟩

/-! ## Growing queues -/

/-- A growing queue whose allocation is its capacity, below `2^32` bytes. -/
structure Owned (w : Nat) (q : PQueue) : Prop where
  dynamic : q.isDynamic = true
  width : q.itemSize = w
  le : q.size ≤ q.cap
  bytes : q.all.length = q.cap * w
  small : q.cap * w < 2 ^ 32

/-- The storage covers the capacity, and no offset in the capacity wraps. -/
structure Accounted (q : PQueue) : Prop where
  room : q.cap * q.itemSize ≤ q.all.length
  offsets : ∀ i < q.cap, offset q.itemSize i = i * q.itemSize

/-- A push that finds the queue full fails or leaves a larger capacity. -/
def Grows (q : PQueue) (op : Act) (r : Answer) (t : PQueue) : Prop :=
  op.isPush = true → q.size = q.cap → r = .pushed false ∨ q.cap < t.cap

/-- A push may also stop at the end of a caller's element shorter than the stride. -/
def Excused (w : Nat) (op : Act) (e : Fault) : Prop :=
  Stops op e ∨ e = .bounds ∧ ∃ data a, op = .push data a ∧ data.length < w

/-- A capacity that is asked for does not wrap; a granted push of a short element stops first. -/
def Counted (q : PQueue) : Act → Prop
  | .push data a => q.size = q.cap → (a.grown.isSome → q.itemSize ≤ data.length) →
      Sized q (growth q) a
  | .reserve newCap a => q.cap < newCap → Sized q newCap a
  | _ => True

instance (q : PQueue) : (op : Act) → Decidable (Counted q op)
  | .push data a => inferInstanceAs (Decidable (q.size = q.cap →
      (a.grown.isSome → q.itemSize ≤ data.length) → Sized q (growth q) a))
  | .reserve newCap a => inferInstanceAs (Decidable (q.cap < newCap → Sized q newCap a))
  | .pop _ _ | .top | .clear => isTrue trivial

/-- The queue after `ct_pqueue_reserve` of `m` elements was granted. -/
def resized (q : PQueue) (m : Nat) (fresh : Nat → UInt8) : PQueue :=
  { q with all := realloc q.all (u32 (m * q.itemSize)) fresh, cap := m }

/-- The queue after a request of `m` elements was refused. -/
def refused (q : PQueue) (m : Nat) : PQueue :=
  if u32 (m * q.itemSize) = 0 then { q with all := [] } else q

theorem reserve_more {q : PQueue} (hd : q.isDynamic = true) (a : Alloc) {m : Nat}
    (more : q.cap < m) : reserve a q m =
      match a.grown with
      | none => (false, refused q m)
      | some fresh => (true, resized q m fresh) := by
  have less : ¬ m ≤ q.cap := by omega
  cases hg : a.grown with
  | none => simp only [reserve, hg, refused, hd, less, Bool.not_true, Bool.false_eq_true, ↓reduceIte]
  | some fresh =>
    simp only [reserve, hg, resized, hd, less, Bool.not_true, Bool.false_eq_true, ↓reduceIte]

/-- A queue whose storage was freed keeps its capacity. -/
theorem refused_stale {q : PQueue} (hw : 0 < q.itemSize) {m : Nat} (cap : 0 < q.cap)
    (after : Accounted (refused q m)) : u32 (m * q.itemSize) ≠ 0 := by
  intro wraps
  have room := after.room
  simp only [refused, wraps, ↓reduceIte, List.length_nil] at room
  have := Nat.mul_pos cap hw
  omega

theorem Owned.accounted {q : PQueue} (h : Owned w q) : Accounted q := by
  obtain ⟨-, rfl, -, bytes, small⟩ := h
  refine ⟨Nat.le_of_eq bytes.symm, fun i hi => u32_of_lt ?_⟩
  have := Nat.mul_le_mul_right q.itemSize (Nat.le_of_lt hi)
  omega

theorem Owned.held {q : PQueue} (h : Owned w q) (hw : 4 ≤ w) : Held q := by
  have fewer := Nat.mul_le_mul_left q.cap hw
  have := h.small
  refine ⟨h.le, by omega, ?_⟩
  rw [h.width, h.bytes]

theorem Owned.stays {q t : PQueue} (h : Owned w q) (ht : Stays q t) : Owned w t := by
  refine ⟨ht.dynamic.trans h.dynamic, ht.width.trans h.width, ?_, ?_, ?_⟩
  · rw [ht.cap]
    exact ht.le
  · rw [ht.bytes, ht.cap, h.bytes]
  · rw [ht.cap]
    exact h.small

theorem Owned.resized {q : PQueue} (h : Owned w q) {m : Nat} (more : q.cap < m)
    (small : m * w < 2 ^ 32) (fresh : Nat → UInt8) : Owned w (q.resized m fresh) := by
  refine ⟨h.dynamic, h.width, Nat.le_trans h.le (Nat.le_of_lt more), ?_, small⟩
  show (realloc q.all (u32 (m * q.itemSize)) fresh).length = m * w
  rw [realloc_length, h.width, u32_of_lt small]

theorem Owned.nextCap {q : PQueue} (h : Owned w q) (hw : 4 ≤ w) : q.nextCap = growth q := by
  have fewer := Nat.mul_le_mul_left q.cap hw
  have := h.small
  simp only [PQueue.nextCap, growth]
  split
  · rfl
  · exact u32_of_lt (by omega)

theorem Owned.refused {q : PQueue} (h : Owned w q) {m : Nat} {a : Alloc} (hg : a.grown = none)
    (sized : Sized q m a) : q.refused m = q := by
  unfold PQueue.refused
  split
  · rename_i wraps
    have zero : q.cap = 0 := by
      by_contra held
      exact sized.2 (by simp [hg]) (Nat.pos_of_ne_zero held) wraps
    have bytes := h.bytes
    rw [zero, Nat.zero_mul] at bytes
    rw [← List.eq_nil_of_length_eq_zero bytes]
  · rfl

/-- A push into a full queue. -/
theorem push_at_cap {q : PQueue} (h : Owned w q) (hw : 4 ≤ w) (full : q.size = q.cap) (a : Alloc)
    (data : Item) : push a q data =
      match a.grown with
      | none => .ok (false, q.refused (growth q))
      | some fresh => append a (q.resized (growth q) fresh) data := by
  have asked := reserve_more h.dynamic a (cap_lt_growth q)
  cases hg : a.grown with
  | none =>
    rw [hg] at asked
    simp only [push, full, ↓reduceIte, h.dynamic, Bool.not_true, Bool.false_eq_true,
      h.nextCap hw, asked, Bool.not_false]
  | some fresh =>
    rw [hg] at asked
    simp only [push, full, ↓reduceIte, h.dynamic, Bool.not_true, Bool.false_eq_true,
      h.nextCap hw, asked]

/-- The doubling whose byte count wraps leaves less storage than before, and the element
is written behind it. -/
theorem append_wrapped {q : PQueue} (h : Owned w q) (hw : 4 ≤ w ∧ w ≤ 512)
    (full : q.size = q.cap) (wrap : 2 ^ 32 ≤ growth q * w) (a : Alloc) (fresh : Nat → UInt8)
    (data : Item) : append a (q.resized (growth q) fresh) data = .error .bounds := by
  by_cases short : data.length < w
  · exact append_short a (show data.length < q.itemSize by rwa [h.width])
  · have small := h.small
    have doubled : growth q = q.cap * 2 := by
      simp only [growth] at wrap ⊢
      split at wrap
      · omega
      · rename_i some
        simp [some]
    have bytes : growth q * w = q.cap * w * 2 := by
      rw [doubled]
      ring
    have left : u32 (growth q * w) < q.cap * w := by
      unfold u32
      omega
    have item : (read data 0 w).length = w := read_length (by omega)
    have start : offset w q.size = q.cap * w := by
      rw [full]
      exact u32_of_lt small
    have outside : (realloc q.all (u32 (growth q * w)) fresh).length <
        offset w q.size + (read data 0 w).length := by
      rw [realloc_length, start]
      omega
    simp only [append, PQueue.resized, h.width, load_ok (show 0 + w ≤ data.length by omega),
      ok_bind, store_bounds outside, error_bind]

/-- A call that copies a whole element and does not ask for storage. -/
theorem owned_step {q : PQueue} (h : Owned w q) (hw : 4 ≤ w) (turns : Nat) {op : Act}
    (hop : Settled q op) (whole : ∀ data a, op = .push data a → q.itemSize ≤ data.length)
    (room : op.isPush = true → q.size ≠ q.cap) :
    (∃ e, act turns q op = .error e ∧ Excused w op e) ∨
      ∃ r t, act turns q op = .ok (r, t) ∧ Grows q op r t ∧ Owned w t := by
  rcases act_held (h.held hw) turns hop whole with ⟨e, fault, stops⟩ | ⟨r, t, hrun, ht, -⟩
  · exact Or.inl ⟨e, fault, Or.inl stops⟩
  · exact Or.inr ⟨r, t, hrun, fun hpush full => absurd full (room hpush), h.stays ht⟩

theorem counted_push {q : PQueue} (h : Owned w q) (hw : 4 ≤ w) (turns : Nat) {data : Item}
    {a : Alloc} (hop : Counted q (.push data a)) :
    (∃ e, act turns q (.push data a) = .error e ∧ Excused w (.push data a) e) ∨
      ∃ r t, act turns q (.push data a) = .ok (r, t) ∧ Grows q (.push data a) r t ∧ Owned w t := by
  have overread (short : data.length < w) : Excused w (.push data a) .bounds :=
    Or.inr ⟨rfl, data, a, rfl, short⟩
  by_cases full : q.size = q.cap
  · cases hg : a.grown with
    | none =>
      have sized : Sized q (growth q) a := hop full (by simp [hg])
      have refused : push a q data = .ok (false, q) := by
        rw [push_at_cap h hw full, hg]
        simp only [h.refused hg sized]
      exact Or.inr ⟨.pushed false, q, by simp [act, refused], fun _ _ => Or.inl rfl, h⟩
    | some fresh =>
      have reached : push a q data = append a (q.resized (growth q) fresh) data := by
        rw [push_at_cap h hw full, hg]
      by_cases short : data.length < w
      · have fault := append_short (q := q.resized (growth q) fresh) a
          (show data.length < q.itemSize by rwa [h.width])
        exact Or.inl ⟨.bounds, by simp [act, reached, fault], overread short⟩
      · have more := cap_lt_growth q
        have small : growth q * w < 2 ^ 32 := by
          rw [← h.width]
          exact (hop full fun _ => by rw [h.width]; omega).1 (by simp [hg])
        have owned := h.resized more small fresh
        rcases append_held (owned.held hw) a (show q.size < growth q by omega)
          (show q.itemSize ≤ data.length by rw [h.width]; omega) with ⟨fault, no⟩ | ⟨t, hrun, ht⟩
        · exact Or.inl ⟨.null, by simp [act, reached, fault], Or.inl (Or.inr ⟨rfl, no⟩)⟩
        · refine Or.inr ⟨.pushed true, t, by simp [act, reached, hrun], fun _ _ => Or.inr ?_,
            owned.stays ht⟩
          rw [ht.cap]
          exact more
  · by_cases short : data.length < w
    · have reached : push a q data = append a q data := by simp only [push, full, ↓reduceIte]
      have fault := append_short a (show data.length < q.itemSize by rwa [h.width])
      exact Or.inl ⟨.bounds, by simp [act, reached, fault], overread short⟩
    · have settled : Settled q (.push data a) := fun h => absurd h full
      refine owned_step h hw turns settled ?_ fun _ => full
      rintro _ _ ⟨⟩
      rw [h.width]
      omega

theorem counted_step {q : PQueue} (h : Owned w q) (hw : 4 ≤ w) (turns : Nat) {op : Act}
    (hop : Counted q op) :
    (∃ e, act turns q op = .error e ∧ Excused w op e) ∨
      ∃ r t, act turns q op = .ok (r, t) ∧ Grows q op r t ∧ Owned w t := by
  cases op with
  | push data a => exact counted_push h hw turns hop
  | pop | top | clear => exact owned_step h hw turns trivial (by simp) (by simp [Act.isPush])
  | reserve newCap a =>
    by_cases more : q.cap < newCap
    · cases hg : a.grown with
      | none =>
        have refused : reserve a q newCap = (false, q) := by
          rw [reserve_more h.dynamic a more, hg]
          simp only [h.refused hg (hop more)]
        exact Or.inr ⟨.reserved false, q, by simp [act, refused], by simp [Grows, Act.isPush], h⟩
      | some fresh =>
        have granted : reserve a q newCap = (true, q.resized newCap fresh) := by
          rw [reserve_more h.dynamic a more, hg]
        have small : newCap * w < 2 ^ 32 := by
          rw [← h.width]
          exact (hop more).1 (by simp [hg])
        exact Or.inr ⟨.reserved true, q.resized newCap fresh, by simp [act, granted],
          by simp [Grows, Act.isPush], h.resized more small fresh⟩
    · exact owned_step h hw turns (fun h => absurd h more) (by simp) (by simp [Act.isPush])

/-- A full push whose growth is granted and wraps writes outside the storage. -/
theorem push_wrapped {q : PQueue} (h : Owned w q) (hw : 4 ≤ w ∧ w ≤ 512) {a : Alloc}
    (full : q.size = q.cap) (granted : a.grown.isSome) (wrap : 2 ^ 32 ≤ growth q * w)
    (data : Item) : push a q data = .error .bounds := by
  obtain ⟨fresh, hg⟩ := Option.isSome_iff_exists.1 granted
  rw [push_at_cap h hw.1 full, hg]
  exact append_wrapped h hw full wrap a fresh data

theorem counted_of_stops {q : PQueue} (h : Owned w q) (hw : 4 ≤ w ∧ w ≤ 512) {turns : Nat}
    {op : Act} {e : Fault} (fault : act turns q op = .error e) (excused : Excused w op e) :
    Counted q op := by
  cases op with
  | push data a =>
    intro full hdata
    cases hg : a.grown with
    | none =>
      -- A push that is refused returns.
      have returned : push a q data = .ok (false, q.refused (growth q)) := by
        rw [push_at_cap h hw.1 full, hg]
      simp [act, returned] at fault
    | some fresh =>
      refine ⟨fun granted => ?_, by simp [hg]⟩
      by_contra wrap
      have whole := hdata granted
      rw [h.width] at whole wrap
      have outside := push_wrapped h hw full granted (Nat.not_lt.1 wrap) data
      obtain rfl : .bounds = e := by simpa [act, outside] using fault
      rcases excused with stops | ⟨-, _, _, same, short⟩
      · simp [Stops] at stops
      · obtain ⟨rfl, rfl⟩ := Act.push.inj same
        omega
  | reserve newCap a => simp [act] at fault
  | _ => trivial

theorem counted_of_accounted {q t : PQueue} (h : Owned w q) (hw : 4 ≤ w ∧ w ≤ 512) {turns : Nat}
    {op : Act} {r : Answer} (hrun : act turns q op = .ok (r, t)) (after : Accounted t) :
    Counted q op := by
  have wide : 0 < q.itemSize := by
    rw [h.width]
    omega
  cases op with
  | push data a =>
    intro full _
    cases hg : a.grown with
    | none =>
      have returned : push a q data = .ok (false, q.refused (growth q)) := by
        rw [push_at_cap h hw.1 full, hg]
      obtain ⟨-, rfl⟩ : .pushed false = r ∧ q.refused (growth q) = t := by
        simpa [act, returned] using hrun
      exact ⟨by simp [hg], fun _ cap => refused_stale wide cap after⟩
    | some fresh =>
      refine ⟨fun granted => ?_, by simp [hg]⟩
      by_contra wrap
      rw [h.width] at wrap
      have outside := push_wrapped h hw full granted (Nat.not_lt.1 wrap) data
      simp [act, outside] at hrun
  | reserve newCap a =>
    intro more
    have asked := reserve_more h.dynamic a more
    cases hg : a.grown with
    | none =>
      rw [hg] at asked
      obtain ⟨-, rfl⟩ : .reserved false = r ∧ q.refused newCap = t := by
        simpa [act, asked] using hrun
      exact ⟨by simp [hg], fun _ cap => refused_stale wide cap after⟩
    | some fresh =>
      refine ⟨fun _ => ?_, by simp [hg]⟩
      by_contra wrap
      rw [hg] at asked
      obtain ⟨-, rfl⟩ : .reserved true = r ∧ q.resized newCap fresh = t := by
        simpa [act, asked] using hrun
      have room : newCap * q.itemSize ≤ (realloc q.all (u32 (newCap * q.itemSize)) fresh).length :=
        after.room
      rw [realloc_length] at room
      have := u32_lt (newCap * q.itemSize)
      omega
  | _ => trivial

/-- **Storage of a growing queue.** Whatever the comparator and the allocator answer, in a run
the storage covers the capacity, no offset wraps, a full queue grows or refuses and nothing
outside the storage is touched, exactly if every capacity that is granted comes to less
than `2^32` bytes, and none that is refused wraps to 0 and frees the storage. -/
theorem accounted_iff {type : Nat} (htype : 1 ≤ type ∧ type ≤ 512) (cmp : Item → Item → Int)
    (turns : Nat) (acts : List Act) :
    Machine.AlongUnless (act turns) (Excused (stride type)) Accounted Grows (init type cmp) acts ↔
      Machine.Meets (act turns) Counted (init type cmp) acts := by
  have hw : 4 ≤ stride type ∧ stride type ≤ 512 := by
    simp only [stride]
    omega
  have start : Owned (stride type) (init type cmp) :=
    ⟨rfl, rfl, Nat.le_refl 0, by simp [init], by simp [init]⟩
  refine Machine.alongUnless_iff_meets (I := Owned (stride type)) ?_ ?_ ?_ ?_ start
  · intro q h
    exact h.accounted
  · intro q op h hop
    exact counted_step h hw.1 turns hop
  · intro q op e h fault excused
    exact counted_of_stops h hw fault excused
  · intro q op r t h hrun _ after
    exact counted_of_accounted h hw hrun after

theorem accounted_iff_grows :
    Machine.AlongUnless (act 4) (Excused (stride 4)) Accounted Grows (init 4 fun _ _ => 1)
      [.reserve 1 ⟨true, some fun _ => 0⟩, .push [7, 0, 0, 0] ⟨true, none⟩,
        .push [8, 0, 0, 0] ⟨true, some fun _ => 0⟩, .pop true ⟨true, none⟩] :=
  (accounted_iff (show 1 ≤ 4 ∧ 4 ≤ 512 by decide) _ 4 _).2 (by decide)

/-- What `reserve_wraps` leaves: room for one element, and a capacity of `2^30 + 1`. -/
def wrapped : PQueue :=
  { all := [0, 0, 0, 0], cmp := fun _ _ => 0, size := 0, cap := 2 ^ 30 + 1, itemSize := 4,
    isDynamic := true }

/-- A reserve of `2^30 + 1` elements of four bytes comes to four bytes, and the second
push writes behind them. -/
theorem reserve_wraps :
    Machine.exec (act 2) (init 4 fun _ _ => 0) [.reserve (2 ^ 30 + 1) ⟨true, some fun _ => 0⟩,
      .push [7, 0, 0, 0] ⟨true, none⟩, .push [8, 0, 0, 0] ⟨true, none⟩] = .error .bounds ∧
    ¬ Machine.AlongUnless (act 2) (Excused (stride 4)) Accounted Grows (init 4 fun _ _ => 0)
      [.reserve (2 ^ 30 + 1) ⟨true, some fun _ => 0⟩] := by
  have granted : act 2 (init 4 fun _ _ => 0) (.reserve (2 ^ 30 + 1) ⟨true, some fun _ => 0⟩) =
      .ok (.reserved true, wrapped) := rfl
  constructor
  · have first : act 2 wrapped (.push [7, 0, 0, 0] ⟨true, none⟩) =
        .ok (.pushed true, { wrapped with all := [7, 0, 0, 0], size := 1 }) := rfl
    have second : act 2 { wrapped with all := [7, 0, 0, 0], size := 1 }
        (.push [8, 0, 0, 0] ⟨true, none⟩) = .error .bounds := rfl
    simp only [Machine.exec, granted, first, second]
  · rintro ⟨_, ⟨e, he, -⟩ | ⟨o, t, hs, -, after⟩⟩
    · rw [granted] at he
      cases he
    · obtain ⟨-, rfl⟩ := Prod.mk.inj (Except.ok.inj (granted.symm.trans hs))
      have room := (Machine.alongUnless_head after).room
      simp [wrapped] at room

end Coter.PQueue
