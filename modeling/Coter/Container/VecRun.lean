import Coter.Container.VecReserve
import Coter.Lib.Machine

/-!
# The vector refines a list

* `implReserve_spec`, `implResize_spec`, `implInsert_spec`, `implErase_spec`,
  `implShrink_spec`: what the byte moves do to the list of elements;
* `step_spec`: one call on a generated vector, with what it destroys;
* `vectors_refine_lists`: whole runs of a vector and of an array.
-/

namespace Coter

open Lib.Blocks

namespace Vec

variable {β : Type} {w : Nat} {v : Vec β}

/-- What holds of a vector between two calls. -/
structure Valid (w : Nat) (v : Vec β) : Prop where
  room : v.size ≤ v.cap
  bounded : v.cap * w ≤ vecMemoryMax
  storage : v.cells.length = v.cap * w

@[simp] theorem cells_some (m : Memory β) (n c : Nat) :
    cells (⟨some m, n, c⟩ : Vec β) = m.cells := rfl

theorem contents_cells (n c : Nat) : contents w (⟨v.ptr, n, c⟩ : Vec β) = slots w v.cells n := rfl

theorem empty_valid : Valid w (⟨none, 0, 0⟩ : Vec β) :=
  ⟨Nat.le_refl 0, by simp, by simp [cells]⟩

theorem contents_length : (contents w v).length = v.size := slots_length w _ _

theorem Valid.fits (hv : Valid w v) {k : Nat} (hk : k ≤ v.cap) : k * w ≤ v.cells.length := by
  rw [hv.storage]
  exact Nat.mul_le_mul_right w hk

theorem Valid.usize_mul (hv : Valid w v) {k : Nat} (hk : k ≤ v.cap) : usize (k * w) = k * w := by
  have := Nat.mul_le_mul_right w hk
  have := hv.bounded
  unfold vecMemoryMax at this
  exact usize_of_lt (by omega)

theorem Valid.cap_lt (hv : Valid w v) (hw : 0 < w) : v.cap < 2 ^ 32 := by
  have := Nat.le_mul_of_pos_right v.cap hw
  have := hv.bounded
  unfold vecMemoryMax at this
  omega

theorem Valid.ptr_ne (hv : Valid w v) (hw : 0 < w) (hc : 0 < v.cap) : v.ptr ≠ none := by
  intro h
  have stored := hv.storage
  have := Nat.mul_pos hc hw
  simp only [cells, h, List.length_nil] at stored
  omega

theorem le_div_iff (hw : 0 < w) {n : Nat} : n ≤ vecMemoryMax / w ↔ n * w ≤ vecMemoryMax :=
  Nat.le_div_iff_mul_le hw

/-- The vector with its cells replaced in place. -/
def withCells (v : Vec β) (c : List β) : Vec β :=
  { v with ptr := v.ptr.map fun m => { m with cells := c } }

@[simp] theorem withCells_size (c : List β) : (v.withCells c).size = v.size := rfl

@[simp] theorem withCells_cap (c : List β) : (v.withCells c).cap = v.cap := rfl

theorem withCells_ptr (c : List β) : (v.withCells c).ptr = none ↔ v.ptr = none := by
  simp [withCells]

theorem withCells_cells (h : v.ptr ≠ none) (c : List β) : (v.withCells c).cells = c := by
  obtain ⟨m, hm⟩ := Option.ne_none_iff_exists'.1 h
  simp [withCells, cells, hm]

theorem put_ok (h : v.ptr ≠ none) {o : Nat} {b : List β} (hb : o + b.length ≤ v.cells.length) :
    v.put o b = .ok (v.withCells (write v.cells o b)) := by
  obtain ⟨m, hm⟩ := Option.ne_none_iff_exists'.1 h
  simp only [cells, hm] at hb
  simp [put, withCells, cells, hm, store_ok hb]

theorem get_ok (h : v.ptr ≠ none) {o n : Nat} (hn : o + n ≤ v.cells.length) :
    v.get o n = .ok (read v.cells o n) := by
  obtain ⟨m, hm⟩ := Option.ne_none_iff_exists'.1 h
  simp only [cells, hm] at hn
  simp [get, cells, hm, load_ok hn]

theorem withCells_same : v.withCells v.cells = v := by
  obtain ⟨ptr, n, c⟩ := v
  cases ptr with
  | none => rfl
  | some m => rfl

theorem put_withCells (h : v.ptr ≠ none) {o : Nat} {m b : List β} (hb : o + b.length ≤ m.length) :
    (v.withCells m).put o b = .ok (v.withCells (write m o b)) := by
  have ptr : (v.withCells m).ptr ≠ none := mt (withCells_ptr m).1 h
  have same : (v.withCells m).cells = m := withCells_cells h m
  rw [put_ok ptr (by rwa [same]), same]
  obtain ⟨p, hp⟩ := Option.ne_none_iff_exists'.1 h
  simp [withCells, hp]

/-- A move of `k` elements from slot `a` to slot `b`, left out where `k` is zero. -/
theorem move_ok (ptr : v.ptr ≠ none) {a b k : Nat} (source : (a + k) * w ≤ v.cells.length)
    (target : (b + k) * w ≤ v.cells.length) {c : Prop} [Decidable c] (skip : ¬ c → k = 0) :
    (if c then v.move (b * w) (a * w) (k * w) else .ok v) =
      .ok (v.withCells (write v.cells (b * w) (read v.cells (a * w) (k * w)))) := by
  rw [Nat.add_mul] at source target
  by_cases hc : c
  · rw [if_pos hc, move, get_ok ptr source]
    exact put_ok ptr (by rwa [read_length source])
  · have none : k * w = 0 := by rw [skip hc, Nat.zero_mul]
    rw [if_neg hc, none, show Lib.Blocks.read v.cells (a * w) 0 = [] from List.take_zero, write_nil,
      withCells_same]

theorem moved_length {a b k : Nat} (source : (a + k) * w ≤ v.cells.length)
    (target : (b + k) * w ≤ v.cells.length) :
    (write v.cells (b * w) (read v.cells (a * w) (k * w))).length = v.cells.length := by
  rw [Nat.add_mul] at source target
  exact write_length (by rwa [read_length source])

theorem rewritten_valid (hv : Valid w v) (ptr : v.ptr ≠ none) {c : List β}
    (length : c.length = v.cells.length) {n : Nat} (hn : n ≤ v.cap) :
    Valid w { v.withCells c with size := n } := by
  refine ⟨hn, hv.bounded, ?_⟩
  rw [show cells { v.withCells c with size := n } = c from withCells_cells ptr c, length]
  exact hv.storage

theorem rewritten_contents (ptr : v.ptr ≠ none) (c : List β) (n : Nat) :
    contents w { v.withCells c with size := n } = slots w c n := by
  rw [contents, show cells { v.withCells c with size := n } = c from withCells_cells ptr c]

/-! ## The implementation functions -/

/-- What a call that may allocate has done to the room of a vector. -/
structure Moved (w : Nat) (v r : Vec β) : Prop where
  valid : Valid w r
  size : r.size = v.size
  contents : contents w r = contents w v

theorem Moved.rfl (hv : Valid w v) : Moved w v v := ⟨hv, by simp, by simp⟩

theorem realloc_spec (hv : Valid w v) {n : Nat} (hs : v.size ≤ n) (hn : n * w ≤ vecMemoryMax)
    {g : Option (Grant β)} {p : Memory β} (hp : v.realloc (n * w) g = some p) :
    Moved w v { v with ptr := some p, cap := n } := by
  cases g with
  | none => simp [realloc] at hp
  | some g =>
    simp only [realloc, Option.some.injEq] at hp
    subst hp
    refine ⟨⟨hs, hn, ?_⟩, by simp, ?_⟩
    · simp only [cells_some, List.length_append, List.length_take, List.length_map,
        List.length_range]
      omega
    · have kept : v.size * w ≤ n * w := Nat.mul_le_mul_right w hs
      have stored : v.size * w ≤ v.cells.length := hv.fits hv.room
      have first : v.size * w ≤ (v.cells.take (n * w)).length := by
        rw [List.length_take]
        omega
      rw [Vec.contents, cells_some, slots_append first, slots_take kept]
      rfl

/-- `ct_vector_impl_reserve` grants the room, or leaves the vector alone. -/
theorem implReserve_spec (hw : 0 < w) (hv : Valid w v) (g : Option (Grant β)) (n : Nat) :
    (implReserve w g v n).1 = false ∧ (implReserve w g v n).2 = v ∧ v.cap < n ∨
      (implReserve w g v n).1 = true ∧ n ≤ (implReserve w g v n).2.cap ∧
        Moved w v (implReserve w g v n).2 := by
  unfold implReserve
  rw [if_neg (by omega)]
  by_cases enough : n ≤ v.cap
  · rw [if_pos enough]
    exact Or.inr ⟨rfl, enough, Moved.rfl hv⟩
  · rw [if_neg enough]
    have short : v.cap < n := by omega
    by_cases big : vecMemoryMax / w < n
    · rw [if_pos big]
      exact Or.inl ⟨rfl, rfl, short⟩
    · simp only [if_neg big]
      by_cases wraps : roundUp n < n
      · rw [if_pos wraps]
        exact Or.inl ⟨rfl, rfl, short⟩
      · rw [if_neg wraps]
        by_cases rounded : vecMemoryMax / w < roundUp n
        · rw [if_pos rounded]
          exact Or.inl ⟨rfl, rfl, short⟩
        · rw [if_neg rounded]
          have target : roundUp n * w ≤ vecMemoryMax := (le_div_iff hw).1 (by omega)
          have bytes : usize (w * roundUp n) = roundUp n * w := by
            rw [Nat.mul_comm]
            apply usize_of_lt
            unfold vecMemoryMax at target
            omega
          rw [bytes]
          cases hp : v.realloc (roundUp n * w) g with
          | none => exact Or.inl ⟨rfl, rfl, short⟩
          | some p =>
            have := hv.room
            exact Or.inr ⟨rfl, by simp; omega, realloc_spec hv (by omega) target hp⟩

/-- What is within the limit and granted is not refused. -/
theorem not_provided (hw : 0 < w) {g : Option (Grant β)} {n : Nat}
    (refused : (implReserve w g v n).1 = false) : ¬ Provided w v n g := by
  intro provided
  have met := implReserveOn_provided .bits64 hw provided
  rw [implReserveOn_bits64, refused] at met
  cases met

/-- How a call that may allocate ends: it leaves the vector alone and says so, or
the elements are as the list `l` has them. -/
structure Ends (w : Nat) (l : List (List β)) (v : Vec β) (ok : Bool) (r : Vec β) : Prop where
  valid : Valid w r
  kept : ok = false → r = v
  done : ok = true → contents w r = l

theorem Ends.refused (hv : Valid w v) (l : List (List β)) : Ends w l v false v :=
  ⟨hv, fun _ => rfl, by simp⟩

theorem Ends.accepted {l : List (List β)} {r : Vec β} (hr : Valid w r) (h : contents w r = l) :
    Ends w l v true r :=
  ⟨hr, by simp, fun _ => h⟩

section
variable (zero : Nat → β)

/-- The zeroed element number `k` of a `memset`. -/
def zeroElem (w k : Nat) : List β := (List.range w).map fun i => zero (k * w + i)

@[simp] theorem zeros_length (n : Nat) : (zeros zero n).length = n := by simp [zeros]

theorem slots_zeros (n : Nat) :
    slots w (zeros zero (n * w)) n = (List.range n).map (zeroElem zero w) := by
  apply List.map_congr_left
  intro k hk
  have room : k * w + w ≤ n * w := slot_room (List.mem_range.1 hk) (Nat.le_refl _)
  apply List.ext_getElem?
  intro i
  simp only [slot, read_getElem?, zeros, zeroElem, List.getElem?_map]
  by_cases hi : i < w
  · rw [if_pos hi, List.getElem?_range (by omega), List.getElem?_range hi]
    rfl
  · rw [if_neg hi, List.getElem?_eq_none (by simpa using Nat.le_of_not_lt hi)]
    rfl

/-- The list after a `resize` to `n` elements. -/
def resized (w : Nat) (l : List (List β)) (n : Nat) : List (List β) :=
  l.take n ++ (List.range (n - l.length)).map (zeroElem zero w)

theorem contents_shrunk {n : Nat} (h : n ≤ v.size) :
    contents w { v with size := n } = resized zero w (contents w v) n := by
  have : n - v.size = 0 := by omega
  rw [resized, contents_length, this, contents_cells, slots_prefix h]
  exact (List.append_nil _).symm

/-- `ct_vector_impl_resize` truncates, or appends zeroed elements. -/
theorem implResize_spec (hw : 0 < w) (hv : Valid w v) (g : Option (Grant β)) (n : Nat) :
    ∃ ok r, implResize w zero g v n = .ok (ok, r) ∧ (Provided w v n g → ok = true) ∧
      Ends w (resized zero w (contents w v) n) v ok r := by
  have room : ∃ ok r, (if v.cap < n then implReserve w g v n else (true, v)) = (ok, r) ∧
      (ok = false ∧ r = v ∧ ¬ Provided w v n g ∨ ok = true ∧ n ≤ r.cap ∧ Moved w v r) := by
    by_cases short : v.cap < n
    · rw [if_pos short]
      refine ⟨_, _, rfl, (implReserve_spec hw hv g n).imp_left ?_⟩
      exact fun refused => ⟨refused.1, refused.2.1, not_provided hw refused.1⟩
    · rw [if_neg short]
      exact ⟨_, _, rfl, Or.inr ⟨rfl, by omega, Moved.rfl hv⟩⟩
  obtain ⟨ok, r, hr, ⟨rfl, rfl, short⟩ | ⟨rfl, enough, moved⟩⟩ := room
  · refine ⟨false, r, ?_, fun provided => absurd provided short, Ends.refused hv _⟩
    simp only [implResize, if_neg (show w ≠ 0 by omega), hr]
    rfl
  · have valid := moved.valid
    by_cases grows : r.size < n
    · have ptr : r.ptr ≠ none := valid.ptr_ne hw (by omega)
      have cap := valid.cap_lt hw
      have gap : usize (usizeSub n r.size * w) = (n - r.size) * w := by
        rw [usizeSub_of_le (by omega) (by omega), valid.usize_mul (by omega)]
      have fill : (zeros zero ((n - r.size) * w)).length = (n - r.size) * w := zeros_length zero _
      have inside : r.size * w + (zeros zero ((n - r.size) * w)).length ≤ r.cells.length := by
        rw [fill, ← Nat.add_mul]
        exact valid.fits (by omega)
      refine ⟨true, { r.withCells (write r.cells (r.size * w) (zeros zero ((n - r.size) * w))) with
        size := n }, ?_, fun _ => rfl,
        Ends.accepted (rewritten_valid valid ptr (write_length inside) enough) ?_⟩
      · simp only [implResize, if_neg (show w ≠ 0 by omega), hr]
        simp only [Bool.not_true, if_pos grows, gap, valid.usize_mul valid.room, put_ok ptr inside]
        rfl
      · have whole : (r.size + (n - r.size)) * w ≤ r.cells.length := by
          rwa [fill, ← Nat.add_mul] at inside
        have all : (contents w r).length ≤ n := by
          rw [contents_length]
          omega
        have filled := slots_fill fill whole
        rw [Nat.add_sub_cancel' (Nat.le_of_lt grows), slots_zeros] at filled
        rw [rewritten_contents ptr, filled, resized, ← moved.contents,
          List.take_of_length_le all, contents_length]
        rfl
    · refine ⟨true, { r with size := n }, ?_, fun _ => rfl, Ends.accepted
        ⟨enough, valid.bounded, valid.storage⟩ ?_⟩
      · simp only [implResize, if_neg (show w ≠ 0 by omega), hr]
        simp [if_neg grows]
      · rw [contents_shrunk zero (by omega), moved.contents]

/-- The element that an `insert` of `data` stores. -/
def stored (w : Nat) (data : Option (Elem β w)) : List β :=
  match data with
  | some e => e.cells
  | none => zeros zero w

theorem stored_length (data : Option (Elem β w)) : (stored zero w data).length = w := by
  cases data with
  | none => exact zeros_length zero w
  | some e => exact e.length

/-- The cells after the tail from element `i` on was moved up by one. -/
def gapped (w : Nat) (v : Vec β) (i : Nat) : List β :=
  write v.cells ((i + 1) * w) (read v.cells (i * w) ((v.size - i) * w))

theorem gapped_length (hv : Valid w v) {i : Nat} (hi : i ≤ v.size) (hs : v.size < v.cap) :
    (gapped w v i).length = v.cells.length :=
  moved_length (a := i) (b := i + 1) (k := v.size - i) (hv.fits (w := w) (by omega))
    (hv.fits (by omega))

theorem openGap_ok (hw : 0 < w) (hv : Valid w v) {i : Nat} (hi : i ≤ v.size) (hs : v.size < v.cap) :
    openGap w v i = .ok (v.withCells (gapped w v i)) := by
  have cap := hv.cap_lt hw
  have low : usize (i * w) = i * w := hv.usize_mul (by omega)
  have span : usize (usizeSub v.size i * w) = (v.size - i) * w := by
    rw [usizeSub_of_le hi (by omega), hv.usize_mul (by omega)]
  have high : usize (usize (i + 1) * w) = (i + 1) * w := by
    rw [usize_of_lt (show i + 1 < 2 ^ 64 by omega), hv.usize_mul (by omega)]
  rw [openGap, low, span, high]
  exact move_ok (hv.ptr_ne hw (by omega)) (hv.fits (by omega)) (hv.fits (by omega)) (by omega)

theorem fillGap_ok (ptr : v.ptr ≠ none) {m : List β} {i : Nat} (low : usize (i * w) = i * w)
    (room : i * w + w ≤ m.length) (data : Option (Elem β w)) :
    fillGap w zero (v.withCells m) i (data.map Elem.cells) =
      .ok (v.withCells (write m (i * w) (stored zero w data))) := by
  cases data with
  | none =>
    rw [← low] at room ⊢
    exact put_withCells ptr (by rwa [zeros_length])
  | some e =>
    have whole : load e.cells 0 w = .ok e.cells := by
      rw [load_ok (by rw [e.length]; omega)]
      simp [Lib.Blocks.read, ← e.length]
    simp only [fillGap, Option.map_some, whole, ok_bind, low]
    exact put_withCells ptr (by rwa [e.length])

/-- The vector with the element `e` in the gap. -/
def placed (w : Nat) (v : Vec β) (i : Nat) (e : List β) : Vec β :=
  { v.withCells (write (gapped w v i) (i * w) e) with size := v.size + 1 }

/-- Moving the tail and writing the gap inserts the element. -/
theorem placed_spec (hw : 0 < w) (hv : Valid w v) {i : Nat} (hi : i ≤ v.size)
    (hs : v.size < v.cap) {e : List β} (he : e.length = w) :
    Valid w (placed w v i e) ∧ contents w (placed w v i e) = (contents w v).insertIdx i e := by
  have ptr : v.ptr ≠ none := hv.ptr_ne hw (by omega)
  have room : (v.size + 1) * w ≤ v.cells.length := hv.fits hs
  have gap : i * w + w ≤ v.cells.length := slot_room (Nat.lt_succ_of_le hi) room
  have length := gapped_length hv hi hs
  have rewritten := (write_length (by rwa [he, length])).trans length
  refine ⟨rewritten_valid hv ptr rewritten hs, ?_⟩
  unfold placed
  rw [rewritten_contents ptr]
  exact slots_insert he hi room

theorem place_spec (hw : 0 < w) (hv : Valid w v) {i : Nat} (hi : i ≤ v.size) (hs : v.size < v.cap)
    (data : Option (Elem β w)) :
    ∃ r, (do
        let r ← openGap w v i
        let r ← fillGap w zero r i (data.map Elem.cells)
        .ok (true, { r with size := usize (r.size + 1) })) = (.ok (true, r) : Except Fault _) ∧
      Valid w r ∧ contents w r = (contents w v).insertIdx i (stored zero w data) := by
  have ptr : v.ptr ≠ none := hv.ptr_ne hw (by omega)
  have cap := hv.cap_lt hw
  have count : usize (v.size + 1) = v.size + 1 := usize_of_lt (by omega)
  have gap : i * w + w ≤ v.cells.length := slot_room (Nat.lt_succ_of_le hi) (hv.fits hs)
  have low : usize (i * w) = i * w := hv.usize_mul (by omega)
  have fill := fillGap_ok zero (m := gapped w v i) ptr low (by rwa [gapped_length hv hi hs]) data
  refine ⟨placed w v i (stored zero w data), ?_,
    placed_spec hw hv hi hs (stored_length zero data)⟩
  rw [openGap_ok hw hv hi hs, ok_bind, fill, ok_bind]
  simp only [withCells_size, count]
  rfl

/-- One more element: the allocation is refused, or there is room for it. -/
theorem makeRoom_spec (hw : 0 < w) (hv : Valid w v) (g : Option (Grant β)) :
    ∃ ok r,
      (if v.cap ≤ v.size then implReserve w g v (usize (v.size + 1)) else (true, v)) = (ok, r) ∧
      (ok = false ∧ r = v ∧ ¬ Provided w v (v.size + 1) g ∨
        ok = true ∧ v.size < r.cap ∧ Moved w v r) := by
  have full := hv.room
  have cap := hv.cap_lt hw
  by_cases short : v.cap ≤ v.size
  · rw [if_pos short, usize_of_lt (show v.size + 1 < 2 ^ 64 by omega)]
    refine ⟨_, _, rfl, ?_⟩
    rcases implReserve_spec hw hv g (v.size + 1) with ⟨ok, same, _⟩ | ⟨ok, enough, moved⟩
    · exact Or.inl ⟨ok, same, not_provided hw ok⟩
    · exact Or.inr ⟨ok, enough, moved⟩
  · rw [if_neg short]
    exact ⟨_, _, rfl, Or.inr ⟨rfl, by omega, Moved.rfl hv⟩⟩

/-- `ct_vector_impl_insert` inserts the element, or a zeroed one. -/
theorem implInsert_spec (hw : 0 < w) (hv : Valid w v) (g : Option (Grant β)) (i : Nat)
    (data : Option (Elem β w)) :
    ∃ ok r, implInsert w zero g v i (data.map Elem.cells) = .ok (ok, r) ∧
      (ok = true → i ≤ v.size) ∧ (i ≤ v.size → Provided w v (v.size + 1) g → ok = true) ∧
      Ends w ((contents w v).insertIdx i (stored zero w data)) v ok r := by
  have nonzero : w ≠ 0 := by omega
  by_cases inside : i ≤ v.size
  · obtain ⟨ok, r, hr, ⟨rfl, rfl, short⟩ | ⟨rfl, enough, moved⟩⟩ := makeRoom_spec hw hv g
    · refine ⟨false, r, ?_, by simp, fun _ provided => absurd provided short, Ends.refused hv _⟩
      simp only [implInsert, if_neg nonzero, if_neg (Nat.not_lt.2 inside), hr]
      rfl
    · have within : i ≤ r.size := by
        rw [moved.size]
        exact inside
      have below : r.size < r.cap := by
        rw [moved.size]
        exact enough
      obtain ⟨r', placed, valid, inserted⟩ := place_spec zero hw moved.valid within below data
      refine ⟨true, r', ?_, fun _ => inside, fun _ _ => rfl, Ends.accepted valid ?_⟩
      · simp only [implInsert, if_neg nonzero, if_neg (Nat.not_lt.2 inside), hr, placed]
        rfl
      · rw [inserted, moved.contents]
  · refine ⟨false, v, ?_, by simp, by omega, Ends.refused hv _⟩
    simp only [implInsert, if_neg nonzero, if_pos (Nat.not_le.1 inside)]

end

theorem closeGap_ok (hw : 0 < w) (hv : Valid w v) {i : Nat} (hi : i < v.size) :
    closeGap w v i = .ok (v.withCells
      (write v.cells (i * w) (read v.cells ((i + 1) * w) ((v.size - i - 1) * w)))) := by
  have room := hv.room
  have cap := hv.cap_lt hw
  have low : usize (i * w) = i * w := hv.usize_mul (by omega)
  have count : usizeSub v.size 1 = v.size - 1 := usizeSub_of_le (by omega) (by omega)
  have span : usize (usizeSub (usizeSub v.size i) 1 * w) = (v.size - i - 1) * w := by
    rw [usizeSub_of_le (show i ≤ v.size by omega) (by omega), usizeSub_of_le (by omega) (by omega),
      hv.usize_mul (by omega)]
  have high : usize (usize (i + 1) * w) = (i + 1) * w := by
    rw [usize_of_lt (show i + 1 < 2 ^ 64 by omega), hv.usize_mul (by omega)]
  rw [closeGap, low, count, span, high]
  exact move_ok (hv.ptr_ne hw (by omega)) (hv.fits (by omega)) (hv.fits (by omega)) (by omega)

/-- `ct_vector_impl_erase` of an element that exists. -/
theorem implErase_spec (hw : 0 < w) (hv : Valid w v) {i : Nat} (hi : i < v.size) :
    ∃ r, implErase w v i = .ok (true, r) ∧ Valid w r ∧ contents w r = (contents w v).eraseIdx i := by
  have room := hv.room
  have cap := hv.cap_lt hw
  have ptr : v.ptr ≠ none := hv.ptr_ne hw (by omega)
  have count : usizeSub v.size 1 = v.size - 1 := usizeSub_of_le (by omega) (by omega)
  have length := moved_length (a := i + 1) (b := i) (k := v.size - i - 1)
    (hv.fits (w := w) (by omega)) (hv.fits (by omega))
  refine ⟨_, ?_, rewritten_valid hv ptr length (n := v.size - 1) (by omega), ?_⟩
  · have checks : ¬ (v.ptr.isNone ∨ w = 0) := by
      rintro (null | zero)
      · exact ptr (Option.isNone_iff_eq_none.1 null)
      · omega
    rw [implErase, if_neg checks, if_neg (Nat.not_le.2 hi), closeGap_ok hw hv hi, ok_bind]
    simp only [withCells_size, count]
  · rw [rewritten_contents ptr]
    exact slots_erase hi (hv.fits room)

theorem implErase_refused {i : Nat} (hi : v.size ≤ i) : implErase w v i = .ok (false, v) := by
  simp [implErase, hi]

/-- `ct_vector_impl_shrink` keeps the elements. -/
theorem implShrink_spec (hw : 0 < w) (hv : Valid w v) (g : Option (Grant β)) :
    Ends w (contents w v) v (implShrink w g v).1 (implShrink w g v).2 ∧
      ((implShrink w g v).1 = true → (implShrink w g v).2.cap = v.size) := by
  unfold implShrink
  rw [if_neg (by omega)]
  by_cases exact_ : v.cap = v.size
  · rw [if_pos exact_]
    exact ⟨Ends.accepted hv rfl, fun _ => exact_⟩
  · rw [if_neg exact_]
    by_cases none_ : v.size = 0
    · rw [if_pos none_]
      refine ⟨Ends.accepted ⟨by simp [none_], by simp, by simp [cells]⟩ ?_,
        fun _ => none_.symm⟩
      simp [contents, none_, slots]
    · rw [if_neg none_]
      have bytes : usize (w * v.size) = v.size * w := by
        rw [Nat.mul_comm]
        exact hv.usize_mul hv.room
      rw [bytes]
      cases hp : v.realloc (v.size * w) g with
      | none => exact ⟨Ends.refused hv _, by simp⟩
      | some p =>
        have fits := Nat.le_trans (Nat.mul_le_mul_right w hv.room) hv.bounded
        have moved := realloc_spec hv (Nat.le_refl v.size) fits hp
        exact ⟨Ends.accepted moved.valid moved.contents, fun _ => rfl⟩

/-! ## The destructor -/

theorem contents_getElem {i : Nat} (h : i < (contents w v).length) :
    (contents w v)[i] = slot w v.cells i := by
  have inside : i < v.size := by rwa [contents_length] at h
  have found := slots_getElem? w v.cells v.size i
  rw [if_pos inside] at found
  exact (List.getElem_of_getElem? found).2

theorem Valid.ptr_ne_of_lt (hw : 0 < w) (hv : Valid w v) {i : Nat} (hi : i < v.size) :
    v.ptr ≠ none := by
  have := hv.room
  exact hv.ptr_ne hw (by omega)

section
variable (dtor : Option (Dtor β))

/-- What a destructor call is passed of the elements `l`. -/
def passed (l : List (List β)) : List (List β) := if dtor.isSome then l else []

theorem passed_nil : passed dtor [] = [] := ite_self _

/-- `v` after its element `i` was handed to the destructor. -/
structure Spoiled (w : Nat) (v r : Vec β) (i : Nat) : Prop where
  valid : Valid w r
  size : r.size = v.size
  others : ∃ x, contents w r = (contents w v).set i x

theorem destroyAt_spec (hw : 0 < w) (hv : Valid w v) (d : Dtor β) {i : Nat} (hi : i < v.size) :
    ∃ r, destroyAt w d v i = .ok (slot w v.cells i, r) ∧ Spoiled w v r i := by
  have ptr := hv.ptr_ne_of_lt hw hi
  have room : i * w + w ≤ v.cells.length := slot_room hi (hv.fits hv.room)
  have left (e : List β) : ((List.range w).map (d e)).length = w := by simp
  have length := write_length (m := v.cells) (o := i * w) (b := (List.range w).map
    (d (slot w v.cells i))) (by rwa [left])
  refine ⟨v.withCells (write v.cells (i * w) ((List.range w).map (d (slot w v.cells i)))), ?_,
    rewritten_valid hv ptr length hv.room, rfl, (List.range w).map (d (slot w v.cells i)), ?_⟩
  · simp only [destroyAt, get_ok ptr room, ok_bind]
    rw [put_ok ptr (by rwa [left])]
    rfl
  · exact (rewritten_contents ptr _ v.size).trans (slots_set (left _) hi (hv.fits hv.room))

theorem destroyOne_spec (hw : 0 < w) (hv : Valid w v) {i : Nat} (hi : i < v.size) :
    ∃ r, destroyOne w dtor v i = .ok (passed dtor [slot w v.cells i], r) ∧ Spoiled w v r i := by
  cases dtor with
  | none =>
    have inside : i < (contents w v).length := by rwa [contents_length]
    refine ⟨v, rfl, hv, rfl, (contents w v)[i], ?_⟩
    rw [List.set_getElem_self]
  | some d =>
    obtain ⟨r, hr, spoiled⟩ := destroyAt_spec hw hv d hi
    refine ⟨r, ?_, spoiled⟩
    simp only [destroyOne, hr, ok_bind]
    rfl

/-- The loop hands over the elements in order and leaves those in front of them. -/
theorem destroyLoop_spec (hw : 0 < w) (d : Dtor β) {n i : Nat} (hv : Valid w v)
    (hi : i + n = v.size) :
    ∃ r, destroyLoop w d n i v = .ok ((contents w v).drop i, r) ∧ Valid w r ∧ r.size = v.size ∧
      (contents w r).take i = (contents w v).take i := by
  induction n generalizing i v with
  | zero =>
    have none : (contents w v).drop i = [] := by
      apply List.drop_of_length_le
      rw [contents_length]
      omega
    exact ⟨v, by rw [none]; rfl, hv, rfl, rfl⟩
  | succ n ih =>
    obtain ⟨u, hu, valid, size, x, others⟩ := destroyAt_spec hw hv d (i := i) (by omega)
    obtain ⟨r, hr, valid', size', front⟩ := ih valid (i := i + 1) (by omega)
    have first : i < (contents w v).length := by
      rw [contents_length]
      omega
    refine ⟨r, ?_, valid', size'.trans size, ?_⟩
    · simp only [destroyLoop, hu, ok_bind, hr]
      rw [List.drop_eq_getElem_cons first, contents_getElem first, others,
        List.drop_set_of_lt (by omega)]
    · have := congrArg (List.take i) front
      rw [List.take_take, List.take_take, others] at this
      simpa [List.take_set_of_le] using this

theorem destroyFrom_spec (hw : 0 < w) (hv : Valid w v) {i : Nat} (hi : i ≤ v.size) :
    ∃ r, destroyFrom w dtor v i = .ok (passed dtor ((contents w v).drop i), r) ∧
      Valid w { r with size := i } ∧ contents w { r with size := i } = (contents w v).take i := by
  have whole := hv.room
  have unchanged : Valid w { v with size := i } := ⟨by simp; omega, hv.bounded, hv.storage⟩
  cases dtor with
  | none => exact ⟨v, rfl, unchanged, slots_prefix hi⟩
  | some d =>
    cases hp : v.ptr with
    | none =>
      have empty : v.size = 0 := by
        by_contra some
        exact hv.ptr_ne_of_lt hw (i := 0) (by omega) hp
      refine ⟨v, ?_, unchanged, slots_prefix hi⟩
      simp [destroyFrom, hp, passed, contents, empty, slots]
    | some m =>
      obtain ⟨r, hr, valid, size, front⟩ := destroyLoop_spec hw d hv (n := v.size - i) (i := i)
        (by omega)
      have room : i ≤ r.cap := Nat.le_trans (by omega) valid.room
      refine ⟨r, ?_, ⟨room, valid.bounded, valid.storage⟩, ?_⟩
      · simp only [destroyFrom, hp]
        exact hr
      · have inside : i ≤ r.size := by omega
        rw [← front]
        exact slots_prefix inside

end

/-! ## The calls -/

section
variable (zero : Nat → β) (dtor : Option (Dtor β))

namespace Op

/-- Whether a list that holds `l` takes the call at all. -/
def Legal (l : List (List β)) : Op β w → Prop
  | .pop => l ≠ []
  | .insert idx _ _ => idx ≤ l.length
  | .erase idx => idx < l.length
  | .assign idx val => idx < l.length ∧ val.isSome
  | _ => True

/-- What the list holds after a call that was taken. -/
def after (l : List (List β)) : Op β w → List (List β)
  | .reserve .. | .shrink _ => l
  | .resize newSize _ => resized zero w l newSize
  | .push val _ => l ++ [stored zero w val]
  | .pop => l.dropLast
  | .insert idx val _ => l.insertIdx idx (stored zero w val)
  | .erase idx => l.eraseIdx idx
  | .assign idx val => l.set idx (stored zero w val)
  | .clear | .destroy => []

/-- The elements that leave the list. -/
def leaving (l : List (List β)) : Op β w → List (List β)
  | .resize newSize _ => l.drop newSize
  | .pop => l.drop (l.length - 1)
  | .erase idx | .assign idx _ => l[idx]?.toList
  | .clear | .destroy => l
  | .reserve .. | .push .. | .insert .. | .shrink _ => []

/-- Whether the call has the storage that it needs, or is granted it within the limit. -/
def Supplied (v : Vec β) : Op β w → Prop
  | .reserve cap g => Provided w v cap g
  | .resize newSize g => Provided w v newSize g
  | .push _ g | .insert _ _ g => Provided w v (v.size + 1) g
  | .shrink g => v.cap = v.size ∨ v.size = 0 ∨ g.isSome
  | _ => True

end Op

/-- One call as the list sees it: it is taken, or answered with `false` and
without any effect. -/
structure Refines (w : Nat) (v : Vec β) (op : Op β w) (out : Bool × List (List β)) (r : Vec β) :
    Prop where
  refused : out.1 = false → r = v ∧ out.2 = []
  legal : out.1 = true → op.Legal (contents w v)
  prompt : op.Legal (contents w v) → op.Supplied v → out.1 = true
  elements : out.1 = true → contents w r = op.after zero (contents w v)
  destroyed : out.1 = true → out.2 = passed dtor (op.leaving (contents w v))

variable {zero dtor}

/-- A call that never destroys, from how it ends. -/
theorem refines_of_ends {op : Op β w} {ok : Bool} {r : Vec β}
    (ends : Ends w (op.after zero (contents w v)) v ok r)
    (quiet : passed dtor (op.leaving (contents w v)) = [])
    (legal : ok = true → op.Legal (contents w v))
    (prompt : op.Legal (contents w v) → op.Supplied v → ok = true) :
    Refines zero dtor w v op (ok, []) r where
  refused h := ⟨ends.kept h, rfl⟩
  legal := legal
  prompt := prompt
  elements := ends.done
  destroyed _ := quiet.symm

/-- A call that was taken. -/
theorem refines_taken {op : Op β w} {gone : List (List β)} {r : Vec β}
    (legal : op.Legal (contents w v)) (elements : contents w r = op.after zero (contents w v))
    (destroyed : gone = passed dtor (op.leaving (contents w v))) :
    Refines zero dtor w v op (true, gone) r where
  refused := by simp
  legal _ := legal
  prompt _ _ := rfl
  elements _ := elements
  destroyed _ := destroyed

/-- A call that a list would not take. -/
theorem refines_refused {op : Op β w} (illegal : ¬ op.Legal (contents w v)) :
    Refines zero dtor w v op (false, []) v where
  refused _ := ⟨rfl, rfl⟩
  legal := by simp
  prompt h := absurd h illegal
  elements := by simp
  destroyed := by simp

variable (zero dtor)

theorem reserve_refines (hw : 0 < w) (hv : Valid w v) (cap : Nat) (g : Option (Grant β)) :
    Valid w (implReserve w g v cap).2 ∧
      Refines zero dtor w v (.reserve cap g) ((implReserve w g v cap).1, [])
        (implReserve w g v cap).2 := by
  have ends : Ends w (contents w v) v (implReserve w g v cap).1 (implReserve w g v cap).2 := by
    rcases implReserve_spec hw hv g cap with ⟨no, same, _⟩ | ⟨yes, _, moved⟩
    · rw [no, same]
      exact Ends.refused hv _
    · rw [yes]
      exact Ends.accepted moved.valid moved.contents
  refine ⟨ends.valid, refines_of_ends ends (passed_nil dtor) (fun _ => trivial) ?_⟩
  intro _ (provided : Provided w v cap g)
  rcases implReserve_spec hw hv g cap with ⟨no, _, _⟩ | ⟨yes, _, _⟩
  · exact absurd provided (not_provided hw no)
  · exact yes

theorem resize_refines (hw : 0 < w) (hv : Valid w v) (n : Nat) (g : Option (Grant β)) :
    ∃ ok gone r, resize w zero dtor g v n = .ok (ok, gone, r) ∧ Valid w r ∧
      Refines zero dtor w v (.resize n g) (ok, gone) r := by
  by_cases cut : n ≤ v.size
  · obtain ⟨r, hr, valid, front⟩ := destroyFrom_spec dtor hw hv cut
    refine ⟨true, passed dtor ((contents w v).drop n), { r with size := n }, ?_, valid,
      refines_taken trivial ?_ rfl⟩
    · simp only [resize, if_pos cut, hr, ok_bind]
    · rw [front, Op.after, resized, contents_length, show n - v.size = 0 by omega]
      exact (List.append_nil _).symm
  · obtain ⟨ok, r, hr, prompt, ends⟩ := implResize_spec zero hw hv g n
    have quiet : (contents w v).drop n = [] := by
      apply List.drop_of_length_le
      rw [contents_length]
      omega
    refine ⟨ok, [], r, ?_, ends.valid,
      refines_of_ends ends ?_ (fun _ => trivial) fun _ => prompt⟩
    · simp only [resize, if_neg cut, hr, ok_bind]
    · rw [Op.leaving, quiet, passed_nil]

theorem insert_refines (hw : 0 < w) (hv : Valid w v) (i : Nat) (val : Option (Elem β w))
    (g : Option (Grant β)) :
    ∃ ok r, implInsert w zero g v i (val.map Elem.cells) = .ok (ok, r) ∧ Valid w r ∧
      Refines zero dtor w v (.insert i val g) (ok, []) r := by
  obtain ⟨ok, r, hr, legal, prompt, ends⟩ := implInsert_spec zero hw hv g i val
  refine ⟨ok, r, hr, ends.valid, refines_of_ends ends (passed_nil dtor) ?_ ?_⟩
  · intro taken
    rw [Op.Legal, contents_length]
    exact legal taken
  · intro (inside : i ≤ (contents w v).length)
    rw [contents_length] at inside
    exact prompt inside

theorem push_refines (hw : 0 < w) (hv : Valid w v) (val : Option (Elem β w))
    (g : Option (Grant β)) :
    ∃ ok r, implInsert w zero g v v.size (val.map Elem.cells) = .ok (ok, r) ∧ Valid w r ∧
      Refines zero dtor w v (.push val g) (ok, []) r := by
  obtain ⟨ok, r, hr, _, prompt, ends⟩ := implInsert_spec zero hw hv g v.size val
  have appended : (contents w v).insertIdx v.size (stored zero w val) =
      contents w v ++ [stored zero w val] := by
    rw [← contents_length (w := w), List.insertIdx_length_self]
  rw [appended] at ends
  exact ⟨ok, r, hr, ends.valid, refines_of_ends ends (passed_nil dtor) (fun _ => trivial)
    fun _ => prompt (Nat.le_refl _)⟩

/-- An element that is about to leave, as the list has it. -/
theorem leaving_elem {i : Nat} (hi : i < v.size) :
    (contents w v)[i]?.toList = [slot w v.cells i] := by
  rw [contents, slots_getElem?, if_pos hi]
  rfl

theorem pop_refines (hw : 0 < w) (hv : Valid w v) :
    ∃ ok gone r, pop w dtor v = .ok (ok, gone, r) ∧ Valid w r ∧
      Refines zero dtor w v .pop (ok, gone) r := by
  by_cases empty : v.size = 0
  · refine ⟨false, [], v, by simp [pop, empty], hv, refines_refused ?_⟩
    intro (some : contents w v ≠ [])
    exact some (List.eq_nil_of_length_eq_zero (by rw [contents_length, empty]))
  · have last : v.size - 1 < v.size := by omega
    obtain ⟨r, hr, spoiled⟩ := destroyOne_spec dtor hw hv last
    obtain ⟨x, others⟩ := spoiled.others
    have size := spoiled.size
    have room : v.size - 1 ≤ r.cap := Nat.le_trans (by omega) spoiled.valid.room
    have length : (contents w v).length = v.size := contents_length
    refine ⟨true, passed dtor [slot w v.cells (v.size - 1)], { r with size := v.size - 1 }, ?_,
      ⟨room, spoiled.valid.bounded, spoiled.valid.storage⟩, refines_taken ?_ ?_ ?_⟩
    · simp only [pop, if_neg empty, hr, ok_bind, size]
    · intro none
      rw [none] at length
      exact empty length.symm
    · have inside : v.size - 1 ≤ r.size := by omega
      have front : contents w { r with size := v.size - 1 } = (contents w r).take (v.size - 1) :=
        slots_prefix inside
      rw [front, others, List.take_set_of_le (Nat.le_refl _), Op.after, List.dropLast_eq_take, length]
    · rw [Op.leaving, length, List.drop_eq_getElem_cons (by omega), contents_getElem,
        List.drop_of_length_le (by omega)]

theorem erase_refines (hw : 0 < w) (hv : Valid w v) (i : Nat) :
    ∃ ok gone r, erase w dtor v i = .ok (ok, gone, r) ∧ Valid w r ∧
      Refines zero dtor w v (.erase i) (ok, gone) r := by
  have length : (contents w v).length = v.size := contents_length
  by_cases outside : v.size ≤ i
  · refine ⟨false, [], v, by simp [erase, outside], hv, refines_refused ?_⟩
    intro (inside : i < (contents w v).length)
    omega
  · have inside : i < v.size := by omega
    obtain ⟨u, hu, spoiled⟩ := destroyOne_spec dtor hw hv inside
    obtain ⟨x, others⟩ := spoiled.others
    obtain ⟨r, hr, valid, erased⟩ := implErase_spec hw spoiled.valid (i := i) (by rwa [spoiled.size])
    refine ⟨true, passed dtor [slot w v.cells i], r, ?_, valid, refines_taken ?_ ?_ ?_⟩
    · simp only [erase, if_neg outside, hu, ok_bind, hr]
    · rwa [Op.Legal, length]
    · rw [erased, others, List.eraseIdx_set_eq, Op.after]
    · rw [Op.leaving, leaving_elem inside]

theorem assign_refines (hw : 0 < w) (hv : Valid w v) (i : Nat) (val : Option (Elem β w)) :
    ∃ ok gone r, assign w dtor v i val = .ok (ok, gone, r) ∧ Valid w r ∧
      Refines zero dtor w v (.assign i val) (ok, gone) r := by
  have length : (contents w v).length = v.size := contents_length
  cases val with
  | none =>
    refine ⟨false, [], v, rfl, hv, refines_refused ?_⟩
    rintro ⟨_, some⟩
    simp at some
  | some tmp =>
    by_cases outside : v.size ≤ i
    · refine ⟨false, [], v, by simp [assign, outside], hv, refines_refused ?_⟩
      rintro ⟨inside, _⟩
      omega
    · have inside : i < v.size := by omega
      obtain ⟨u, hu, spoiled⟩ := destroyOne_spec dtor hw hv inside
      obtain ⟨x, others⟩ := spoiled.others
      have same := spoiled.size
      have ptr := spoiled.valid.ptr_ne_of_lt hw (i := i) (by omega)
      have stored := spoiled.valid.fits spoiled.valid.room
      have room : i * w + tmp.cells.length ≤ u.cells.length := by
        rw [tmp.length]
        exact slot_room (by omega) stored
      refine ⟨true, passed dtor [slot w v.cells i], _, ?_, rewritten_valid spoiled.valid ptr
        (write_length room) spoiled.valid.room, refines_taken ⟨by omega, rfl⟩ ?_ ?_⟩
      · simp only [assign, if_neg outside, hu, ok_bind, put_ok ptr room]
        rfl
      · rw [rewritten_contents ptr, slots_set tmp.length (by omega) stored, Op.after]
        show (contents w u).set i tmp.cells = _
        rw [others, List.set_set]
        rfl
      · rw [Op.leaving, leaving_elem inside]

theorem shrink_refines (hw : 0 < w) (hv : Valid w v) (g : Option (Grant β)) :
    Valid w (implShrink w g v).2 ∧
      Refines zero dtor w v (.shrink g) ((implShrink w g v).1, []) (implShrink w g v).2 := by
  have ends := (implShrink_spec hw hv g).1
  refine ⟨ends.valid, refines_of_ends ends (passed_nil dtor) (fun _ => trivial) ?_⟩
  rintro _ (fits | empty | granted)
  · simp [implShrink, fits, show w ≠ 0 by omega]
  · by_cases fits : v.cap = v.size
    · simp [implShrink, fits, show w ≠ 0 by omega]
    · rw [implShrink, if_neg (by omega), if_neg fits, if_pos empty]
  · obtain ⟨grant, rfl⟩ := Option.isSome_iff_exists.1 granted
    rw [implShrink, if_neg (by omega)]
    split
    · rfl
    · split <;> rfl

theorem clear_spec (hw : 0 < w) (hv : Valid w v) :
    ∃ r, clear w dtor v = .ok (passed dtor (contents w v), r) ∧ Valid w r ∧ contents w r = [] := by
  obtain ⟨r, hr, valid, front⟩ := destroyFrom_spec dtor hw hv (Nat.zero_le v.size)
  refine ⟨{ r with size := 0 }, ?_, valid, front⟩
  simp only [clear, hr, ok_bind]
  rfl

/-- Every call on a vector refines the call on the list. -/
theorem step_spec (hw : 0 < w) (hv : Valid w v) (op : Op β w) :
    ∃ out r, step w zero dtor v op = .ok (out, r) ∧ Refines zero dtor w v op out r ∧ Valid w r := by
  cases op with
  | reserve cap g =>
    obtain ⟨valid, refines⟩ := reserve_refines zero dtor hw hv cap g
    exact ⟨_, _, rfl, refines, valid⟩
  | resize n g =>
    obtain ⟨ok, gone, r, hr, valid, refines⟩ := resize_refines zero dtor hw hv n g
    exact ⟨(ok, gone), r, by simp only [step, hr, ok_bind], refines, valid⟩
  | push val g =>
    obtain ⟨ok, r, hr, valid, refines⟩ := push_refines zero dtor hw hv val g
    exact ⟨(ok, []), r, by simp only [step, hr, ok_bind], refines, valid⟩
  | pop =>
    obtain ⟨ok, gone, r, hr, valid, refines⟩ := pop_refines zero dtor hw hv
    exact ⟨(ok, gone), r, by simp only [step, hr, ok_bind], refines, valid⟩
  | insert idx val g =>
    obtain ⟨ok, r, hr, valid, refines⟩ := insert_refines zero dtor hw hv idx val g
    exact ⟨(ok, []), r, by simp only [step, hr, ok_bind], refines, valid⟩
  | erase idx =>
    obtain ⟨ok, gone, r, hr, valid, refines⟩ := erase_refines zero dtor hw hv idx
    exact ⟨(ok, gone), r, by simp only [step, hr, ok_bind], refines, valid⟩
  | assign idx val =>
    obtain ⟨ok, gone, r, hr, valid, refines⟩ := assign_refines zero dtor hw hv idx val
    exact ⟨(ok, gone), r, by simp only [step, hr, ok_bind], refines, valid⟩
  | shrink g =>
    obtain ⟨valid, refines⟩ := shrink_refines zero dtor hw hv g
    exact ⟨_, _, rfl, refines, valid⟩
  | clear =>
    obtain ⟨r, hr, valid, empty⟩ := clear_spec dtor hw hv
    refine ⟨(true, passed dtor (contents w v)), r, ?_, refines_taken trivial empty rfl, valid⟩
    simp only [step, hr, ok_bind]
  | destroy =>
    obtain ⟨r, hr, _, _⟩ := clear_spec dtor hw hv
    refine ⟨(true, passed dtor (contents w v)), ⟨none, 0, 0⟩, ?_, refines_taken trivial rfl rfl,
      empty_valid⟩
    simp only [step, destroy, hr, ok_bind]

theorem init_moved (hw : 0 < w) (cap : Nat) (g : Option (Grant β)) :
    Moved w ⟨none, 0, 0⟩ (init w cap g).2 := by
  unfold init
  by_cases some : 0 < cap
  · rw [if_pos some]
    rcases implReserve_spec hw empty_valid g cap with ⟨_, same, _⟩ | ⟨_, _, moved⟩
    · rw [same]
      exact Moved.rfl empty_valid
    · exact moved
  · rw [if_neg some]
    exact Moved.rfl empty_valid

end

end Vec

/-! ## The array -/

namespace CtArray

open Vec

variable {β : Type} {w : Nat} (zero : Nat → β)

/-- The call on a generated vector that does the same to the list. -/
def Op.vec : Op β w → Vec.Op β w
  | .reserve cap g => .reserve cap g
  | .resize newSize g => .resize newSize g
  | .push data g => .push data g
  | .pop => .pop
  | .insert idx data g => .insert idx data g
  | .erase idx => .erase idx
  | .shrink g => .shrink g
  | .clear => .clear

/-- What holds of an array of elements of `w` bytes. -/
def Valid (w : Nat) (a : CtArray β) : Prop := a.byte = w ∧ Vec.Valid w a.toVec

/-- One call as the list sees it. -/
def Refines (w : Nat) (a : CtArray β) (op : Op β w) (ok : Bool) (r : CtArray β) : Prop :=
  Vec.Refines zero none w a.toVec op.vec (ok, []) r.toVec

theorem pop_refines (hw : 0 < w) {a : CtArray β} (ha : Valid w a) :
    Valid w (pop a).2 ∧ Refines zero w a .pop (pop a).1 (pop a).2 := by
  obtain ⟨hb, hv⟩ := ha
  have length : (contents w a.toVec).length = a.size := contents_length
  by_cases empty : a.size = 0
  · have : pop a = (false, a) := by simp [pop, empty]
    rw [this]
    refine ⟨⟨hb, hv⟩, refines_refused ?_⟩
    intro (some : contents w a.toVec ≠ [])
    exact some (List.eq_nil_of_length_eq_zero (by rw [length, empty]))
  · have ptr : a.ptr ≠ none := hv.ptr_ne_of_lt hw (i := 0) (by omega)
    have : pop a = (true, { a with size := a.size - 1 }) := by simp [pop, empty, ptr]
    rw [this]
    have room : a.size - 1 ≤ a.cap := Nat.le_trans (by omega) hv.room
    refine ⟨⟨hb, room, hv.bounded, hv.storage⟩, refines_taken ?_ ?_ rfl⟩
    · intro none
      rw [none] at length
      exact empty length.symm
    · show slots w a.cells (a.size - 1) = (contents w a.toVec).dropLast
      rw [List.dropLast_eq_take, length]
      exact slots_prefix (by omega)

theorem erase_refines (hw : 0 < w) {a : CtArray β} (ha : Valid w a) (i : Nat) :
    ∃ ok r, implErase a.byte a.toVec i = .ok (ok, r) ∧ Vec.Valid w r ∧
      Vec.Refines zero none w a.toVec (.erase i) (ok, []) r := by
  obtain ⟨rfl, hv⟩ := ha
  have length : (contents a.byte a.toVec).length = a.size := contents_length
  by_cases outside : a.size ≤ i
  · refine ⟨false, a.toVec, implErase_refused outside, hv, refines_refused ?_⟩
    intro (inside : i < (contents a.byte a.toVec).length)
    omega
  · obtain ⟨r, hr, valid, erased⟩ := implErase_spec hw hv (Nat.lt_of_not_le outside)
    refine ⟨true, r, hr, valid, refines_taken ?_ erased rfl⟩
    show i < (contents a.byte a.toVec).length
    omega

theorem step_spec (hw : 0 < w) {a : CtArray β} (ha : Valid w a) (op : Op β w) :
    ∃ ok r, step zero a op = .ok (ok, r) ∧ Refines zero w a op ok r ∧ Valid w r := by
  obtain ⟨rfl, hv⟩ := ha
  cases op with
  | reserve cap g =>
    obtain ⟨valid, refines⟩ := reserve_refines zero none hw hv cap g
    exact ⟨_, _, rfl, refines, rfl, valid⟩
  | resize n g =>
    obtain ⟨ok, r, hr, prompt, ends⟩ := implResize_spec zero hw hv g n
    refine ⟨ok, { a with toVec := r }, by simp only [step, hr, ok_bind], ?_, rfl, ends.valid⟩
    exact refines_of_ends ends rfl (fun _ => trivial) fun _ => prompt
  | push data g =>
    obtain ⟨ok, r, hr, valid, refines⟩ := push_refines zero none hw hv data g
    exact ⟨ok, { a with toVec := r }, by simp only [step, hr, ok_bind], refines, rfl, valid⟩
  | pop =>
    obtain ⟨valid, refines⟩ := pop_refines zero hw ⟨rfl, hv⟩
    exact ⟨_, _, rfl, refines, valid⟩
  | insert idx data g =>
    obtain ⟨ok, r, hr, valid, refines⟩ := insert_refines zero none hw hv idx data g
    exact ⟨ok, { a with toVec := r }, by simp only [step, hr, ok_bind], refines, rfl, valid⟩
  | erase idx =>
    obtain ⟨ok, r, hr, valid, refines⟩ := erase_refines zero hw ⟨rfl, hv⟩ idx
    exact ⟨ok, { a with toVec := r }, by simp only [step, hr, ok_bind], refines, rfl, valid⟩
  | shrink g =>
    obtain ⟨valid, refines⟩ := shrink_refines zero none hw hv g
    exact ⟨_, _, rfl, refines, rfl, valid⟩
  | clear =>
    refine ⟨_, _, rfl, refines_taken trivial rfl rfl, rfl, Nat.zero_le _, hv.bounded, hv.storage⟩

theorem init_valid (hw : 0 < w) {cap : Nat} {g : Option (Grant β)} {ok : Bool} {a : CtArray β}
    (h : init w cap g = some (ok, a)) : Valid w a := by
  simp only [init, if_neg (show w ≠ 0 by omega), Option.some.injEq, Prod.mk.injEq] at h
  obtain ⟨_, rfl⟩ := h
  refine ⟨rfl, ?_⟩
  exact (Vec.init_moved hw cap g).valid

end CtArray

/-- The zero byte, wherever `memset` writes it. -/
def zeroByte : Nat → UInt8 := fun _ => 0

/-- Every run of a generated vector, and every run of an array, goes through valid
states only and refines the run of the list of its elements. -/
theorem vectors_refine_lists (w : Nat) (hw : 0 < w) (dtor : Option (Dtor UInt8)) (cap : Nat)
    (g : Option (Grant UInt8)) :
    (∀ ops : List (Vec.Op UInt8 w),
      Lib.Machine.Along (Vec.step w zeroByte dtor) (Vec.Valid w) (Vec.Refines zeroByte dtor w)
        (Vec.init w cap g).2 ops) ∧
    ∀ (ok : Bool) (a : CtArray UInt8), CtArray.init w cap g = some (ok, a) →
      ∀ ops : List (CtArray.Op UInt8 w),
        Lib.Machine.Along (CtArray.step zeroByte) (CtArray.Valid w) (CtArray.Refines zeroByte w)
          a ops := by
  constructor
  · intro ops
    exact Lib.Machine.along_of_invariant (fun _ hv => hv)
      (fun _ op hv => Vec.step_spec zeroByte dtor hw hv op) (Vec.init_moved hw cap g).valid ops
  · intro ok a ha ops
    exact Lib.Machine.along_of_invariant (fun _ hv => hv)
      (fun _ op hv => CtArray.step_spec zeroByte hw hv op) (CtArray.init_valid hw ha) ops

theorem vectors_refine_lists_ints : Lib.Machine.Along (Vec.step 4 zeroByte none) (Vec.Valid 4)
    (Vec.Refines zeroByte none 4) ⟨none, 0, 0⟩
    [.push (some ⟨[1, 2, 3, 4], rfl⟩) (some ⟨64, zeroByte⟩), .push none none, .pop] :=
  (vectors_refine_lists 4 (by decide) none 0 none).1 _

end Coter
