import Coter.Sync.PubSub

/-!
# The bus serves its registered entries

* `unsubscribeLoop_spec`: the loop that erases while it steps through the array
  keeps what it has passed and filters what lies ahead;
* `publishLoop_spec`: the calls are those of the matching entries, in order;
* `publish_serves_registered`: whole runs of a bus.
-/

namespace Coter.PubSub

open Lib.Blocks Lib.ByteOrder

variable {host : Endian} {a : CtArray UInt8}

/-- The entries that are registered, in the order of their subscription. -/
def registered (host : Endian) (a : CtArray UInt8) : List Sub :=
  (Vec.contents subSize a.toVec).map (Sub.ofCells host)

/-- What one call does with the list of registered entries, and what it answers. -/
def Serves (l : List Sub) (op : Op) (out : Int × List Call) (l' : List Sub) : Prop :=
  match op with
  | .subscribe type cb userData _ _ =>
    out = (0, []) ∧ l' = l ++ [⟨type, cb, userData⟩] ∨ out = (-1, []) ∧ l' = l
  | .unsubscribe type cb =>
    l' = l.filter (fun s => ¬ (s.type = type ∧ s.cb = cb)) ∧
      out = (if ∃ s ∈ l, s.type = type ∧ s.cb = cb then 0 else -1, [])
  | .publish type data =>
    l' = l ∧
      out = (0, (l.filter (fun s => s.type = type)).map fun s => ⟨s.cb, type, data, s.userData⟩)

/-- What holds of `sub_list_` between two calls. -/
structure Valid (host : Endian) (a : CtArray UInt8) : Prop where
  storage : CtArray.Valid subSize a
  callbacks : ∀ s ∈ registered host a, s.cb ≠ 0

/-! ## The entries in the array -/

theorem Sub.elem_cells (s : Sub) (pad : BitVec 32) :
    (s.elem host pad).cells = encode host 4 s.type.toNat ++ (encode host 4 pad.toNat ++
      (encode host 8 s.cb.toNat ++ encode host 8 s.userData.toNat)) := rfl

/-- An entry is read back as it was stored. -/
theorem Sub.ofCells_elem (s : Sub) (pad : BitVec 32) :
    Sub.ofCells host (s.elem host pad).cells = s := by
  have front : (encode host 4 s.type.toNat ++ encode host 4 pad.toNat).length = 8 := by simp
  have type : Lib.Blocks.read (s.elem host pad).cells 0 4 = encode host 4 s.type.toNat := by
    rw [elem_cells, Lib.Blocks.read, List.drop_zero, List.take_left' (encode_length host 4 _)]
  have behind : (s.elem host pad).cells.drop 8 =
      encode host 8 s.cb.toNat ++ encode host 8 s.userData.toNat := by
    rw [elem_cells, ← List.append_assoc, List.drop_left' front]
  have cb : Lib.Blocks.read (s.elem host pad).cells 8 8 = encode host 8 s.cb.toNat := by
    rw [Lib.Blocks.read, behind, List.take_left' (encode_length host 8 _)]
  have userData :
      Lib.Blocks.read (s.elem host pad).cells (8 + 8) 8 = encode host 8 s.userData.toNat := by
    rw [Lib.Blocks.read, ← List.drop_drop, behind, List.drop_left' (encode_length host 8 _),
      List.take_of_length_le (by simp)]
  rw [Sub.ofCells, type, cb, userData, ofNat_decode_encode host _ (by norm_num),
    ofNat_decode_encode host _ (by norm_num), ofNat_decode_encode host _ (by norm_num)]

theorem registered_length : (registered host a).length = a.size := by
  rw [registered, List.length_map, Vec.contents_length]

theorem at_ok (host : Endian) (ha : CtArray.Valid subSize a) {i : Nat} (hi : i < a.size) :
    ∃ cells, a.at i = .ok (some cells) ∧
      (registered host a)[i]? = some (Sub.ofCells host cells) := by
  obtain ⟨byte, valid⟩ := ha
  have wide : 0 < subSize := by decide
  have ptr := valid.ptr_ne_of_lt wide hi
  have room : i * subSize + subSize ≤ a.cells.length := slot_room hi (valid.fits valid.room)
  refine ⟨slot subSize a.cells i, ?_, ?_⟩
  · have present : ¬ (a.ptr.isNone ∨ a.size ≤ i) := by
      simp only [Option.isNone_iff_eq_none, not_or]
      exact ⟨ptr, Nat.not_le.2 hi⟩
    have below : i ≤ a.cap := Nat.le_trans (Nat.le_of_lt hi) valid.room
    rw [CtArray.at, if_neg present, byte, valid.usize_mul below, Vec.get_ok ptr room]
    rfl
  · rw [registered, List.getElem?_map, Vec.contents, slots_getElem?, if_pos hi]
    rfl

theorem push_spec (host : Endian) (ha : CtArray.Valid subSize a) (s : Sub) (pad : BitVec 32)
    (g : Option (Grant UInt8)) :
    ∃ ok r, CtArray.step zeroByte a (.push (some (s.elem host pad)) g) = .ok (ok, r) ∧
      CtArray.Valid subSize r ∧ (ok = true → registered host r = registered host a ++ [s]) ∧
      (ok = false → registered host r = registered host a) := by
  obtain ⟨ok, r, hr, refines, valid⟩ := CtArray.step_spec zeroByte (by decide) ha
    (.push (some (s.elem host pad)) g)
  refine ⟨ok, r, hr, valid, ?_, ?_⟩
  · intro taken
    have pushed : Vec.contents subSize r.toVec =
        Vec.contents subSize a.toVec ++ [(s.elem host pad).cells] := refines.elements taken
    rw [registered, pushed, List.map_append, List.map_singleton, Sub.ofCells_elem]
    rfl
  · intro refused
    have same : r.toVec = a.toVec := (refines.refused refused).1
    rw [registered, same]
    rfl

theorem erase_spec (host : Endian) (ha : CtArray.Valid subSize a) {i : Nat} (hi : i < a.size) :
    ∃ r, CtArray.step zeroByte a (.erase i : CtArray.Op UInt8 subSize) = .ok (true, r) ∧
      CtArray.Valid subSize r ∧ registered host r = (registered host a).eraseIdx i := by
  obtain ⟨ok, r, hr, refines, valid⟩ := CtArray.step_spec zeroByte (by decide) ha
    (.erase i : CtArray.Op UInt8 subSize)
  have inside : i < (Vec.contents subSize a.toVec).length := by rwa [Vec.contents_length]
  have taken : ok = true := refines.prompt inside trivial
  subst taken
  have erased : Vec.contents subSize r.toVec = (Vec.contents subSize a.toVec).eraseIdx i :=
    refines.elements rfl
  refine ⟨r, hr, valid, ?_⟩
  rw [registered, erased, ← List.eraseIdx_map]
  rfl

/-! ## The loops -/

/-- `i--` and then `++i`, also where `i` is 0. -/
theorem step_back {i : Nat} (h : i < 2 ^ 64) : usize (usizeSub i 1 + 1) = i := by
  unfold usize usizeSub usize
  omega

theorem size_lt (ha : CtArray.Valid subSize a) : a.size < 2 ^ 64 := by
  have := ha.2.room
  have := ha.2.cap_lt (by decide)
  omega

/-- The entry that `ct_array_at` gives is the next one of those from `i` on. -/
theorem at_split (host : Endian) (ha : CtArray.Valid subSize a) {i : Nat} (hi : i < a.size) :
    ∃ cells, a.at i = .ok (some cells) ∧
      (registered host a)[i]? = some (Sub.ofCells host cells) ∧
      (registered host a).drop i = Sub.ofCells host cells :: (registered host a).drop (i + 1) := by
  obtain ⟨cells, hat, hentry⟩ := at_ok host ha hi
  obtain ⟨inside, entry⟩ := List.getElem?_eq_some_iff.1 hentry
  have split := List.drop_eq_getElem_cons inside
  rw [entry] at split
  exact ⟨cells, hat, hentry, split⟩

theorem entries_end (host : Endian) {i : Nat} (h : a.size ≤ i) :
    (registered host a).drop i = [] ∧ (registered host a).take i = registered host a := by
  have length : (registered host a).length = a.size := registered_length
  exact ⟨List.drop_of_length_le (by omega), List.take_of_length_le (by omega)⟩

/-- The loop keeps the entries in front of `i`, and of those behind it the ones that
do not match. -/
theorem unsubscribeLoop_spec (host : Endian) (type : BitVec 32) (cb : BitVec 64) (fuel : Nat)
    (ha : CtArray.Valid subSize a) {i : Nat} (ret : Int) (enough : a.size ≤ i + fuel) :
    ∃ r, unsubscribeLoop host type cb fuel i ret a =
        .ok (if ∃ s ∈ (registered host a).drop i, s.matches type cb then 0 else ret, r) ∧
      CtArray.Valid subSize r ∧ registered host r = (registered host a).take i ++
        ((registered host a).drop i).filter (fun s => ¬ s.matches type cb) := by
  have length : (registered host a).length = a.size := registered_length
  induction fuel generalizing a i ret with
  | zero =>
    obtain ⟨none, all⟩ := entries_end host (show a.size ≤ i by omega)
    refine ⟨a, ?_, ha, ?_⟩
    · rw [unsubscribeLoop, if_neg (by omega), none]
      simp
    · rw [none, all]
      simp
  | succ fuel ih =>
    by_cases ahead : i < a.size
    · obtain ⟨cells, hat, hentry, split⟩ := at_split host ha ahead
      have small := size_lt ha
      have hi : i < (registered host a).length := by rwa [length]
      by_cases hit : (Sub.ofCells host cells).matches type cb = true
      · obtain ⟨r, hr, valid, erased⟩ := erase_spec host ha ahead
        have shorter : (registered host r).length = a.size - 1 := by
          rw [erased, List.length_eraseIdx_of_lt hi, length]
        have size : r.size = a.size - 1 := registered_length.symm.trans shorter
        obtain ⟨u, hu, hvalid, hkept⟩ := ih valid (i := i) 0 (by omega) registered_length
        have front : (registered host r).take i = (registered host a).take i := by
          rw [erased, List.take_eraseIdx_eq_take_of_le _ _ _ (Nat.le_refl i)]
        have back : (registered host r).drop i = (registered host a).drop (i + 1) := by
          rw [erased, List.eraseIdx_eq_take_drop_succ,
            List.drop_left' (List.length_take_of_le (Nat.le_of_lt hi))]
        refine ⟨u, ?_, hvalid, ?_⟩
        · rw [unsubscribeLoop, if_pos ahead, hat, ok_bind]
          dsimp only
          rw [if_pos hit, hr, ok_bind]
          dsimp only
          rw [step_back (by omega), hu, split]
          simp [hit]
        · rw [hkept, front, back, split, List.filter_cons_of_neg (by simp [hit])]
      · obtain ⟨u, hu, hvalid, hkept⟩ := ih ha (i := i + 1) ret (by omega) length
        refine ⟨u, ?_, hvalid, ?_⟩
        · rw [unsubscribeLoop, if_pos ahead, hat, ok_bind]
          dsimp only
          rw [if_neg hit, usize_of_lt (by omega), hu, split]
          simp [hit]
        · rw [hkept, split, List.filter_cons_of_pos (by simp [hit]), List.take_add_one, hentry]
          simp
    · obtain ⟨none, all⟩ := entries_end host (show a.size ≤ i by omega)
      refine ⟨a, ?_, ha, ?_⟩
      · rw [unsubscribeLoop, if_neg ahead, none]
        simp
      · rw [none, all]
        simp

/-- The calls are those of the entries from `i` on that have the type. -/
theorem publishLoop_spec (type : BitVec 32) (data : BitVec 64) (ha : CtArray.Valid subSize a)
    (fuel : Nat) {i : Nat} (enough : a.size ≤ i + fuel) :
    publishLoop host type data a fuel i =
      .ok ((((registered host a).drop i).filter (fun s => s.type = type)).map
        fun s => ⟨s.cb, type, data, s.userData⟩) := by
  induction fuel generalizing i with
  | zero =>
    obtain ⟨none, -⟩ := entries_end host (show a.size ≤ i by omega)
    rw [publishLoop, if_neg (by omega), none]
    rfl
  | succ fuel ih =>
    by_cases ahead : i < a.size
    · obtain ⟨cells, hat, -, split⟩ := at_split host ha ahead
      have small := size_lt ha
      rw [publishLoop, if_pos ahead, hat, ok_bind, usize_of_lt (by omega), ih (by omega), ok_bind,
        split]
      by_cases typed : (Sub.ofCells host cells).type = type
      · simp [typed]
      · simp [typed]
    · obtain ⟨none, -⟩ := entries_end host (show a.size ≤ i by omega)
      rw [publishLoop, if_neg ahead, none]
      rfl

/-! ## Runs -/

theorem step_spec (ha : Valid host a) (op : Op) :
    ∃ out t, step host a op = .ok (out, t) ∧
      Serves (registered host a) op out (registered host t) ∧ Valid host t := by
  cases op with
  | subscribe type cb userData pad g =>
    by_cases null : cb = 0
    · refine ⟨(-1, []), a, ?_, Or.inr ⟨rfl, rfl⟩, ha⟩
      rw [step, subscribe, if_pos null]
      rfl
    · obtain ⟨ok, r, hr, valid, pushed, refused⟩ := push_spec host ha.storage
        ⟨type, cb, userData⟩ pad g
      cases ok with
      | true =>
        have entries := pushed rfl
        refine ⟨(0, []), r, ?_, Or.inl ⟨rfl, entries⟩, valid, ?_⟩
        · rw [step, subscribe, if_neg null]
          dsimp only
          rw [hr]
          rfl
        · intro s hs
          rw [entries, List.mem_append, List.mem_singleton] at hs
          rcases hs with old | rfl
          · exact ha.callbacks s old
          · exact null
      | false =>
        have entries := refused rfl
        refine ⟨(-1, []), r, ?_, Or.inr ⟨rfl, entries⟩, valid, entries ▸ ha.callbacks⟩
        rw [step, subscribe, if_neg null]
        dsimp only
        rw [hr]
        rfl
  | unsubscribe type cb =>
    by_cases null : cb = 0
    · have apart (s : Sub) (hs : s ∈ registered host a) : ¬ (s.type = type ∧ s.cb = cb) := by
        rintro ⟨-, same⟩
        exact ha.callbacks s hs (same.trans null)
      refine ⟨(-1, []), a, ?_, ⟨?_, ?_⟩, ha⟩
      · rw [step, unsubscribe, if_pos null]
        rfl
      · exact (List.filter_eq_self.2 fun s hs => decide_eq_true (apart s hs)).symm
      · rw [if_neg]
        rintro ⟨s, hs, hit⟩
        exact apart s hs hit
    · have hit (s : Sub) : s.matches type cb = true ↔ s.type = type ∧ s.cb = cb := by
        have given : ¬ cb = 0#64 := null
        simp [Sub.matches, given]
      obtain ⟨r, hr, valid, kept⟩ := unsubscribeLoop_spec host type cb a.size
        ha.storage (i := 0) (-1) (by omega)
      simp only [List.drop_zero, List.take_zero, List.nil_append, hit] at hr kept
      refine ⟨(if ∃ s ∈ registered host a, s.type = type ∧ s.cb = cb then 0 else -1, []), r, ?_,
        ⟨kept, rfl⟩, valid, ?_⟩
      · rw [step, unsubscribe, if_neg null, hr]
        rfl
      · intro s hs
        rw [kept] at hs
        exact ha.callbacks s (List.mem_of_mem_filter hs)
  | publish type data =>
    refine ⟨_, a, ?_, ⟨rfl, rfl⟩, ha⟩
    rw [step, publish, publishLoop_spec type data ha.storage a.size (by omega), List.drop_zero]
    rfl

theorem init_eq : CtArray.init subSize 0 none = some (true, init) := rfl

theorem init_valid (host : Endian) : Valid host init := by
  refine ⟨⟨rfl, Vec.empty_valid⟩, ?_⟩
  intro s hs
  exact absurd hs List.not_mem_nil

/-- **The bus serves its registered entries.** In every run of a bus a publication calls
the entries of its type that are registered then, each once and in the order of their
subscription, with its data and their own user data; `ct_pubsub_unsubscribe` removes the
entries with its type and callback, keeps the order of the rest, and returns 0 exactly
where there was one; and a subscription that fails registers nothing. -/
theorem publish_serves_registered (host : Endian) (ops : List Op) :
    Lib.Machine.Along (step host) (Valid host)
      (fun a op out t => Serves (registered host a) op out (registered host t)) init ops :=
  Lib.Machine.along_of_invariant (fun _ ha => ha) (fun _ op ha => step_spec ha op)
    (init_valid host) ops

end Coter.PubSub
