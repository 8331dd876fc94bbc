import Coter.Container.VecRun

/-!
# Elements of the vector itself

A caller may pass `NAME_insert`, `NAME_push` and `NAME_assign` a pointer to an
element of the same vector.

* `own_insert`, `own_assign`: what such a call stores;
* `Undisturbed`: the element still lies where the pointer says when it is copied;
* `own_iff`: over all vectors and positions, the value is the one at the time of the
  call exactly if the element is undisturbed.

Where ISO C leaves a use of memory undefined that platforms define, `lenient` says
whether this one does: a pointer into a block that `realloc` did not move is still
good, and `memcpy` copies an element onto itself. Else both are faults.
-/

namespace Coter.Vec

open Lib.Blocks

variable {β : Type}

/-- Where the storage lies. -/
def address (v : Vec β) : Option Nat := v.ptr.map Memory.address

section

variable (lenient : Bool) (w : Nat) (g : Option (Grant β)) (dtor : Option (Dtor β))

/-- What `ct_vector_impl_insert` works on once there is room. -/
def grown (v : Vec β) : Bool × Vec β :=
  if v.cap ≤ v.size then implReserve w g v (usize (v.size + 1)) else (true, v)

/-- The `memcpy` of `ct_vector_impl_insert` into `r`, from what was element `j` of `v`. -/
def fillOwn (v r : Vec β) (idx j : Nat) : Except Fault (Vec β) :=
  if v.cap ≤ v.size ∧ ¬ (lenient = true ∧ r.address = v.address) then .error .bounds
  else if j = idx ∧ lenient = false then .error .bounds
  else do
    let elem ← r.get (j * w) w
    r.put (usize (idx * w)) elem

/-- `ct_vector_impl_insert` with `data` at element `j`. -/
def implInsertOwn (v : Vec β) (idx j : Nat) : Except Fault (Bool × Vec β) :=
  if w = 0 then .ok (false, v)
  else if v.size < idx then .ok (false, v)
  else
    let (granted, r) := grown w g v
    if !granted then .ok (false, r)
    else do
      let r ← openGap w r idx
      let r ← fillOwn lenient w v r idx j
      .ok (true, { r with size := usize (r.size + 1) })

/-- `NAME_assign` with `val` at element `j`. -/
def assignOwn (v : Vec β) (idx j : Nat) : Except Fault (Bool × List (List β) × Vec β) :=
  if v.size ≤ idx then .ok (false, [], v)
  else do
    let tmp ← v.get (j * w) w
    let (gone, v) ← destroyOne w dtor v idx
    let v ← v.put (idx * w) tmp
    .ok (true, gone, v)

/-- A call with a pointer to element `j`. -/
inductive Own
  | insert (idx j : Nat)
  | push (j : Nat)
  | assign (idx j : Nat)

def Own.source : Own → Nat
  | .insert _ j | .push j | .assign _ j => j

def callOwn (v : Vec β) : Own → Except Fault (Bool × Vec β)
  | .insert idx j => implInsertOwn lenient w g v idx j
  | .push j => implInsertOwn lenient w g v v.size j
  | .assign idx j => do
    let (ok, _, v) ← assignOwn w dtor v idx j
    .ok (ok, v)

/-- The list after the call, for an element `e`. -/
def Own.after (l : List (List β)) (e : List β) : Own → List (List β)
  | .insert idx _ => l.insertIdx idx e
  | .push _ => l ++ [e]
  | .assign idx _ => l.set idx e

/-- There is no such position, or no room. -/
def Declines (v : Vec β) : Own → Prop
  | .insert idx _ => v.size < idx ∨ (grown w g v).1 = false
  | .push _ => (grown w g v).1 = false
  | .assign idx _ => v.size ≤ idx

/-- The call stores the value that the element had, or declines and changes nothing. -/
def StoresOwn (v : Vec β) (c : Own) : Prop :=
  ∃ ok r, callOwn lenient w g dtor v c = .ok (ok, r) ∧ (ok = false ↔ Declines w g v c) ∧
    Ends w (c.after (contents w v) (slot w v.cells c.source)) v ok r

/-- The storage of `v` stays where the pointer expects it. -/
def Stays (v : Vec β) : Prop :=
  v.size < v.cap ∨ lenient = true ∧ (grown w g v).2.address = v.address

/-- The element still lies where the pointer says when it is copied, or one that is
the same. -/
def Undisturbed (v : Vec β) : Own → Prop
  | .insert idx j => Stays lenient w g v ∧
      (j < idx ∨ j = idx ∧ lenient = true ∨ idx < j ∧ slot w v.cells (j - 1) = slot w v.cells j)
  | .push _ => Stays lenient w g v
  | .assign .. => True

end

variable {w : Nat} {v : Vec β} {lenient : Bool} {g : Option (Grant β)} {dtor : Option (Dtor β)}
  {idx j : Nat}

/-- After the tail was moved, an element of it lies one place further on. -/
theorem slot_gapped (hv : Valid w v) (hi : idx ≤ v.size) (hs : v.size < v.cap) (hj : j < v.size) :
    slot w (gapped w v idx) j =
      if j ≤ idx then slot w v.cells j else slot w v.cells (j - 1) := by
  have inside : (idx + (v.size - idx)) * w ≤ v.cells.length := hv.fits (by omega)
  have above : (idx + 1 + (v.size - idx)) * w ≤ v.cells.length := hv.fits (by omega)
  have tail : (read v.cells (idx * w) ((v.size - idx) * w)).length = (v.size - idx) * w :=
    read_length (by rwa [← Nat.add_mul])
  unfold gapped
  rw [slot_write_block tail above]
  by_cases front : j ≤ idx
  · rw [if_neg (by omega), if_pos front]
  · rw [if_pos (by omega), if_neg front, slot_read (by omega)]
    congr 1
    omega

/-- What there is room for, before the tail is moved. -/
theorem grown_spec (hw : 0 < w) (hv : Valid w v) :
    (grown w g v).1 = false ∧ (grown w g v).2 = v ∨
      (grown w g v).1 = true ∧ v.size < (grown w g v).2.cap ∧ Moved w v (grown w g v).2 := by
  obtain ⟨ok, r, hr, ⟨refused, same, -⟩ | granted⟩ := makeRoom_spec hw hv g
  · unfold grown
    rw [hr]
    exact Or.inl ⟨refused, same⟩
  · unfold grown
    rw [hr]
    exact Or.inr granted

theorem Moved.slot {r : Vec β} (h : Moved w v r) {i : Nat} (hi : i < v.size) :
    slot w r.cells i = slot w v.cells i := by
  have same := congrArg (fun l => l[i]?) h.contents
  have hr : i < r.size := by rwa [h.size]
  simp only [Vec.contents, slots_getElem?, if_pos hr, if_pos hi] at same
  exact Option.some.inj same

/-- The value that the copy finds: the element, or the one in front of it. -/
def found (w : Nat) (v : Vec β) (idx j : Nat) : List β :=
  if j ≤ idx then slot w v.cells j else slot w v.cells (j - 1)

theorem slot_length_of_lt (hv : Valid w v) {i : Nat} (hi : i < v.size) :
    (slot w v.cells i).length = w := by
  have room := hv.room
  exact slot_length (hv.fits (by omega))

theorem withCells_address (m : List β) : (v.withCells m).address = v.address := by
  simp [address, withCells, Function.comp_def]

theorem fillOwn_ok {r : Vec β} {m e : List β} (ptr : r.ptr ≠ none)
    (stays : ¬ (v.cap ≤ v.size ∧ ¬ (lenient = true ∧ r.address = v.address)))
    (apart : ¬ (j = idx ∧ lenient = false)) (source : j * w + w ≤ m.length)
    (elem : read m (j * w) w = e) (low : usize (idx * w) = idx * w)
    (target : idx * w + e.length ≤ m.length) :
    fillOwn lenient w v (r.withCells m) idx j = .ok (r.withCells (write m (idx * w) e)) := by
  have inGap : (r.withCells m).ptr ≠ none := mt (withCells_ptr m).1 ptr
  have same : (r.withCells m).cells = m := withCells_cells ptr m
  have loaded : (r.withCells m).get (j * w) w = .ok e := by
    rw [get_ok inGap (by rwa [same]), same, elem]
  unfold fillOwn
  rw [withCells_address, if_neg stays, if_neg apart, loaded, ok_bind, low]
  exact put_withCells ptr target

theorem own_insert (hw : 0 < w) (hv : Valid w v) (hi : idx ≤ v.size) (hj : j < v.size)
    (granted : (grown w g v).1 = true) (stays : Stays lenient w g v)
    (apart : ¬ (j = idx ∧ lenient = false)) :
    ∃ r, implInsertOwn lenient w g v idx j = .ok (true, r) ∧ Valid w r ∧
      contents w r = (contents w v).insertIdx idx (found w v idx j) := by
  obtain ⟨refused, -⟩ | ⟨-, enough, moved⟩ := grown_spec (g := g) hw hv
  · rw [granted] at refused
    cases refused
  · obtain ⟨r, hr⟩ : ∃ r, grown w g v = (true, r) := ⟨(grown w g v).2, Prod.ext granted rfl⟩
    have good : ¬ (v.cap ≤ v.size ∧ ¬ (lenient = true ∧ r.address = v.address)) := by
      rintro ⟨full, gone⟩
      obtain room | ⟨hl, same⟩ := stays
      · omega
      · exact gone ⟨hl, by rwa [hr] at same⟩
    rw [hr] at enough moved
    dsimp only at enough moved
    have hsize := moved.size
    have valid := moved.valid
    have hi' : idx ≤ r.size := by omega
    have hj' : j < r.size := by omega
    have hs' : r.size < r.cap := by omega
    have ptr : r.ptr ≠ none := valid.ptr_ne hw (by omega)
    have cap := valid.cap_lt hw
    have low : usize (idx * w) = idx * w := valid.usize_mul (by omega)
    have gap := gapped_length valid hi' hs'
    have room : (r.size + 1) * w ≤ r.cells.length := valid.fits hs'
    have source : j * w + w ≤ (gapped w r idx).length := by
      rw [gap]
      exact slot_room (by omega : j < r.size + 1) room
    have elem : read (gapped w r idx) (j * w) w = found w v idx j := by
      refine (slot_gapped valid hi' hs' hj').trans ?_
      unfold found
      split
      · exact moved.slot hj
      · exact moved.slot (by omega)
    have long : (found w v idx j).length = w := by
      rw [← elem]
      exact read_length source
    have target : idx * w + (found w v idx j).length ≤ (gapped w r idx).length := by
      rw [gap, long]
      exact slot_room (by omega : idx < r.size + 1) room
    have copied := fillOwn_ok ptr good apart source elem low target
    obtain ⟨valid', inserted⟩ := placed_spec hw valid hi' hs' long
    refine ⟨placed w r idx (found w v idx j), ?_, valid', by rw [inserted, moved.contents]⟩
    unfold implInsertOwn
    rw [if_neg (by omega), if_neg (by omega), hr]
    simp only [Bool.not_true, Bool.false_eq_true, if_false, openGap_ok hw valid hi' hs', ok_bind,
      copied, withCells_size, usize_of_lt (by omega : r.size + 1 < 2 ^ 64)]
    rfl

/-- The copy reads a block that is gone, or an element that it overwrites. -/
theorem own_insert_faults (hw : 0 < w) (hv : Valid w v) (hi : idx ≤ v.size)
    (granted : (grown w g v).1 = true)
    (h : ¬ Stays lenient w g v ∨ j = idx ∧ lenient = false) :
    implInsertOwn lenient w g v idx j = .error .bounds := by
  obtain ⟨refused, -⟩ | ⟨-, enough, moved⟩ := grown_spec (g := g) hw hv
  · rw [granted] at refused
    cases refused
  · obtain ⟨r, hr⟩ : ∃ r, grown w g v = (true, r) := ⟨(grown w g v).2, Prod.ext granted rfl⟩
    rw [hr] at enough moved
    dsimp only at enough moved
    have hsize := moved.size
    have opened := openGap_ok hw moved.valid (i := idx) (by omega) (by omega)
    have faults : fillOwn lenient w v (r.withCells (gapped w r idx)) idx j = .error .bounds := by
      unfold fillOwn
      rw [withCells_address]
      by_cases gone : v.cap ≤ v.size ∧ ¬ (lenient = true ∧ r.address = v.address)
      · rw [if_pos gone]
      · obtain moves | onto := h
        · refine absurd ⟨?_, fun same => ?_⟩ gone
          · exact Nat.le_of_not_lt (fun room => moves (Or.inl room))
          · exact moves (Or.inr (by rwa [hr]))
        · rw [if_neg gone, if_pos onto]
    unfold implInsertOwn
    rw [if_neg (by omega), if_neg (by omega), hr]
    simp only [Bool.not_true, Bool.false_eq_true, if_false, opened, ok_bind, faults]
    rfl

/-- A call without such a position or without room. -/
theorem own_insert_declines (hw : 0 < w) (hv : Valid w v)
    (h : v.size < idx ∨ (grown w g v).1 = false) :
    implInsertOwn lenient w g v idx j = .ok (false, v) := by
  unfold implInsertOwn
  rw [if_neg (by omega)]
  by_cases outside : v.size < idx
  · rw [if_pos outside]
  · have refused : (grown w g v).1 = false := h.resolve_left outside
    have same : (grown w g v).2 = v := by
      obtain ⟨-, same⟩ | ⟨granted, -⟩ := grown_spec (g := g) hw hv
      · exact same
      · rw [granted] at refused
        cases refused
    have hr : grown w g v = (false, v) := Prod.ext refused same
    rw [if_neg outside, hr]
    rfl

theorem insertIdx_inj {l : List (List β)} {i : Nat} (hi : i ≤ l.length) {a b : List β}
    (h : l.insertIdx i a = l.insertIdx i b) : a = b := by
  have same := congrArg (fun l => l[i]?) h
  simpa [List.getElem?_insertIdx_self, hi] using same

theorem insert_iff (hw : 0 < w) (hv : Valid w v) (hj : j < v.size) :
    StoresOwn lenient w g dtor v (.insert idx j) ↔
      Declines w g v (.insert idx j) ∨ Undisturbed lenient w g v (.insert idx j) := by
  have length : (contents w v).length = v.size := contents_length
  by_cases declines : Declines w g v (.insert idx j)
  · refine ⟨fun _ => Or.inl declines, fun _ => ⟨false, v, ?_, by simp [declines],
      Ends.refused hv _⟩⟩
    exact own_insert_declines hw hv declines
  · have hi : idx ≤ v.size := Nat.le_of_not_lt (fun h => declines (Or.inl h))
    have granted : (grown w g v).1 = true := by
      cases h : (grown w g v).1 with
      | true => rfl
      | false => exact absurd (Or.inr h) declines
    simp only [declines, false_or]
    by_cases faults : ¬ Stays lenient w g v ∨ j = idx ∧ lenient = false
    · have fault := own_insert_faults (j := j) hw hv hi granted faults
      constructor
      · rintro ⟨ok, r, hr, -⟩
        rw [callOwn, fault] at hr
        cases hr
      · rintro ⟨stays, place⟩
        obtain moves | ⟨onto, strict⟩ := faults
        · exact absurd stays moves
        · rw [strict] at place
          obtain front | ⟨-, lenient⟩ | ⟨behind, -⟩ := place
          · omega
          · cases lenient
          · omega
    · obtain ⟨stays, apart⟩ := not_or.1 faults
      have stays : Stays lenient w g v := not_not.1 stays
      obtain ⟨r, hr, valid, inserted⟩ := own_insert hw hv hi hj granted stays apart
      have exact_ : StoresOwn lenient w g dtor v (.insert idx j) ↔
          found w v idx j = slot w v.cells j := by
        constructor
        · rintro ⟨ok, r', hr', hok, ends⟩
          rw [callOwn, hr, Except.ok.injEq, Prod.mk.injEq] at hr'
          obtain ⟨rfl, rfl⟩ := hr'
          exact insertIdx_inj (by omega) (inserted.symm.trans (ends.done rfl))
        · intro same
          rw [same] at inserted
          exact ⟨true, r, hr, by simp [declines], Ends.accepted valid inserted⟩
      rw [exact_, Undisturbed, found]
      obtain front | onto | behind := Nat.lt_trichotomy j idx
      · rw [if_pos (Nat.le_of_lt front)]
        exact ⟨fun _ => ⟨stays, Or.inl front⟩, fun _ => rfl⟩
      · have hl : lenient = true := by
          cases lenient with
          | true => rfl
          | false => exact absurd ⟨onto, rfl⟩ apart
        rw [if_pos (Nat.le_of_eq onto)]
        exact ⟨fun _ => ⟨stays, Or.inr (Or.inl ⟨onto, hl⟩)⟩, fun _ => rfl⟩
      · rw [if_neg (Nat.not_le.2 behind)]
        refine ⟨fun same => ⟨stays, Or.inr (Or.inr ⟨behind, same⟩)⟩, ?_⟩
        rintro ⟨-, front | ⟨onto, -⟩ | ⟨-, same⟩⟩
        · omega
        · omega
        · exact same

/-- A push copies behind all elements. -/
theorem push_iff (hw : 0 < w) (hv : Valid w v) (hj : j < v.size) :
    StoresOwn lenient w g dtor v (.push j) ↔
      Declines w g v (.push j) ∨ Undisturbed lenient w g v (.push j) := by
  have length : (contents w v).length = v.size := contents_length
  have last (e : List β) : (contents w v).insertIdx v.size e = contents w v ++ [e] := by
    rw [← length, List.insertIdx_length_self]
  have declines : Declines w g v (.insert v.size j) ↔ Declines w g v (.push j) := by
    simp [Declines]
  have undisturbed : Undisturbed lenient w g v (.insert v.size j) ↔
      Undisturbed lenient w g v (.push j) := by
    simp only [Undisturbed, hj, true_or, and_true]
  have stores : StoresOwn lenient w g dtor v (.insert v.size j) ↔
      StoresOwn lenient w g dtor v (.push j) := by
    simp only [StoresOwn, callOwn, declines, Own.after, last, Own.source]
  rw [← stores, insert_iff hw hv hj, declines, undisturbed]

/-- An assignment copies the element before anything happens to it. -/
theorem own_assign (hw : 0 < w) (hv : Valid w v) (hj : j < v.size) :
    StoresOwn lenient w g dtor v (.assign idx j) := by
  have length : (contents w v).length = v.size := contents_length
  by_cases outside : v.size ≤ idx
  · refine ⟨false, v, ?_, by simp [Declines, outside], Ends.refused hv _⟩
    simp only [callOwn, assignOwn, if_pos outside, ok_bind]
  · have inside : idx < v.size := Nat.lt_of_not_le outside
    have source : j * w + w ≤ v.cells.length := slot_room hj (hv.fits hv.room)
    obtain ⟨u, hu, spoiled⟩ := destroyOne_spec dtor hw hv inside
    obtain ⟨x, others⟩ := spoiled.others
    have same := spoiled.size
    have ptr := spoiled.valid.ptr_ne_of_lt hw (i := idx) (by omega)
    have stored := spoiled.valid.fits spoiled.valid.room
    have long : (slot w v.cells j).length = w := slot_length_of_lt hv hj
    have room : idx * w + (slot w v.cells j).length ≤ u.cells.length := by
      rw [long]
      exact slot_room (by omega) stored
    refine ⟨true, _, ?_, by simp [Declines, inside], Ends.accepted
      (rewritten_valid spoiled.valid ptr (write_length room) spoiled.valid.room) ?_⟩
    · simp only [callOwn, assignOwn, if_neg outside, get_ok (hv.ptr_ne_of_lt hw hj) source, ok_bind,
        hu]
      rw [show Lib.Blocks.read v.cells (j * w) w = slot w v.cells j from rfl, put_ok ptr room]
      rfl
    · rw [rewritten_contents ptr, slots_set long (by omega) stored]
      show (contents w u).set idx (slot w v.cells j) = _
      rw [others, List.set_set]
      rfl

/-- **Elements of the vector itself.** An insertion, a push or an assignment from
element `j` of the same vector stores the value that it had at the time of the call,
and leaves the other elements as the list does, if the call declines or the element
lies undisturbed; and only then. An assignment always does. -/
theorem own_iff (hw : 0 < w) (hv : Valid w v) (c : Own) (hj : c.source < v.size) :
    StoresOwn lenient w g dtor v c ↔ Declines w g v c ∨ Undisturbed lenient w g v c := by
  cases c with
  | insert idx j => exact insert_iff hw hv hj
  | push j => exact push_iff hw hv hj
  | assign idx j => exact ⟨fun _ => Or.inr trivial, fun _ => own_assign hw hv hj⟩

/-- Three elements of one byte, with room for a fourth. -/
def three : Vec UInt8 := ⟨some ⟨64, [1, 2, 3, 0]⟩, 3, 4⟩

theorem three_valid : Valid 1 three := ⟨by decide, by decide, rfl⟩

theorem own_iff_three : StoresOwn true 1 none none three (.insert 0 1) ↔
    Declines 1 none three (.insert 0 1) ∨ Undisturbed true 1 none three (.insert 0 1) :=
  own_iff (by decide) three_valid (.insert 0 1) (by decide)

/-- One element of one byte that takes all the room. -/
def single : Vec UInt8 := ⟨some ⟨64, [1]⟩, 1, 1⟩

/-- The second element inserted in front: the first one is stored twice. The only
element pushed to a full vector that moves: it is read where nothing is any more. -/
theorem insert_stores_another : Valid 1 three ∧ Valid 1 single ∧
    implInsertOwn true 1 none three 0 1 = .ok (true, ⟨some ⟨64, [1, 1, 2, 3]⟩, 4, 4⟩) ∧
    ¬ StoresOwn true 1 none none three (.insert 0 1) ∧
    ¬ StoresOwn true 1 (some ⟨128, zeroByte⟩) none single (.push 0) := by
  have twice : implInsertOwn true 1 none three 0 1 =
      .ok (true, ⟨some ⟨64, [1, 1, 2, 3]⟩, 4, 4⟩) := by decide
  have moved : implInsertOwn true 1 (some ⟨128, zeroByte⟩) single 1 0 = .error .bounds := by decide
  refine ⟨three_valid, ⟨by decide, by decide, rfl⟩, twice, ?_, ?_⟩
  · rintro ⟨ok, r, hr, -, ends⟩
    rw [callOwn, twice, Except.ok.injEq, Prod.mk.injEq] at hr
    obtain ⟨rfl, rfl⟩ := hr
    have stored := ends.done rfl
    revert stored
    decide
  · rintro ⟨ok, r, hr, -⟩
    have fault : callOwn true 1 (some ⟨128, zeroByte⟩) none single (.push 0) = .error .bounds := moved
    rw [fault] at hr
    cases hr

end Coter.Vec
