import Coter.Bytes.Bytes
import Coter.Lib.Machine

/-!
# Runs of byte buffers

* `Valid`: the cursors are in order and the capacity is backed by memory;
* `Kept`: what every call on a valid buffer keeps;
* `bytes_runs`: over every run of calls, no buffer or view is accessed outside
  its capacity.
-/

namespace Coter.Bytes

open Lib.ByteOrder Lib.Machine

structure Valid (m : Mem) (b : Bytes) : Prop where
  pos : b.pos ≤ b.len
  len : b.len ≤ b.cap
  small : b.cap < 2 ^ 32
  backed : b.data + b.cap ≤ m.length

/-- A call moves the cursors of the buffer and writes only where it lies. -/
structure Kept (m : Mem) (b : Bytes) (m' : Mem) (b' : Bytes) : Prop where
  valid : Valid m' b'
  data : b'.data = b.data
  cap : b'.cap = b.cap
  length : m'.length = m.length
  outside : ∀ i, i < b.data ∨ b.data + b.cap ≤ i → m'[i]? = m[i]?

variable {m m' : Mem} {b b' : Bytes} {n offset : Nat} {bytes : List UInt8}

theorem Kept.refl (v : Valid m b) : Kept m b m b :=
  ⟨v, rfl, rfl, rfl, fun _ _ => rfl⟩

/-- New cursors, the same memory. -/
theorem Valid.moved (v : Valid m b) (hdata : b'.data = b.data) (hcap : b'.cap = b.cap)
    (hpos : b'.pos ≤ b'.len) (hlen : b'.len ≤ b.cap) : Kept m b m b' where
  valid := ⟨hpos, hcap ▸ hlen, hcap ▸ v.small, by rw [hdata, hcap]; exact v.backed⟩
  data := hdata
  cap := hcap
  length := rfl
  outside _ _ := rfl

theorem Kept.trans {m'' : Mem} {b'' : Bytes} (h : Kept m b m' b') (h' : Kept m' b' m'' b'') :
    Kept m b m'' b'' where
  valid := h'.valid
  data := h'.data.trans h.data
  cap := h'.cap.trans h.cap
  length := h'.length.trans h.length
  outside i hi := (h'.outside i (by rw [h.data, h.cap]; exact hi)).trans (h.outside i hi)

theorem fail_kept (v : Valid m b) : Kept m b m b.fail := v.moved rfl rfl v.pos v.len

theorem readable_eq (v : Valid m b) : b.readable = b.len - b.pos :=
  u32Sub_of_le v.pos (by have := v.len; have := v.small; omega)

theorem writable_eq (v : Valid m b) : b.writable = b.cap - b.pos :=
  u32Sub_of_le (Nat.le_trans v.pos v.len) v.small

/-- A request cut down to `limit`. -/
theorem clamp_spec (v : Valid m b) (length limit : Nat) :
    ∃ k b₁, b.clamp length limit = (k, b₁) ∧ k = min length limit ∧ Kept m b m b₁ ∧
      b₁.pos = b.pos ∧ b₁.len = b.len := by
  unfold clamp
  split
  · exact ⟨limit, b.fail, rfl, by omega, fail_kept v, rfl, rfl⟩
  · exact ⟨length, b, rfl, by omega, Kept.refl v, rfl, rfl⟩

theorem u32_add_of_lt {i : Nat} (h : i + n < 2 ^ 32) : u32 (i + u32 n) = i + n := by
  have hn : u32 n = n := u32_of_lt (by omega)
  rw [hn, u32_of_lt h]

theorem advance_pos (h : b.pos + n < 2 ^ 32) : (b.advance n).pos = b.pos + n := u32_add_of_lt h

theorem advance_len (h : b.pos + n < 2 ^ 32) : (b.advance n).len = max b.len (b.pos + n) := by
  unfold advance
  dsimp only
  rw [u32_add_of_lt h]
  split <;> omega

theorem advance_kept (v : Valid m b) (h : b.pos + n ≤ b.cap) : Kept m b m (b.advance n) := by
  have hlen := v.len
  have hsmall := v.small
  apply v.moved
  · rfl
  · rfl
  · rw [advance_pos (by omega), advance_len (by omega)]
    omega
  · rw [advance_len (by omega)]
    omega

theorem load_bytes (v : Valid m b) (h : offset + n ≤ b.cap) :
    b.load m offset n = .ok (Lib.Blocks.read m (b.data + offset) n) := by
  have := v.backed
  unfold load
  rw [if_pos h, load_ok (by omega)]

theorem store_bytes (v : Valid m b) (offset : Nat) (bytes : List UInt8)
    (h : offset + bytes.length ≤ b.cap) :
    b.store m offset bytes = .ok (Lib.Blocks.write m (b.data + offset) bytes) ∧
      Kept m b (Lib.Blocks.write m (b.data + offset) bytes) b := by
  have hback := v.backed
  have hlength := Lib.Blocks.write_length (m := m) (b := bytes) (o := b.data + offset) (by omega)
  unfold store
  rw [if_pos h, store_ok (by omega)]
  refine ⟨rfl, ⟨v.pos, v.len, v.small, hlength ▸ hback⟩, rfl, rfl, hlength, fun i hi => ?_⟩
  rw [Lib.Blocks.write_getElem? (by omega), if_neg (by omega)]

/-! ## The calls -/

theorem compact_spec (v : Valid m b) :
    ∃ b' m', b.compact m = .ok (b', m') ∧ Kept m b m' b' ∧ b'.pos = 0 ∧ b'.len = b.len - b.pos ∧
      Lib.Blocks.read m' b.data (b.len - b.pos) =
        Lib.Blocks.read m (b.data + b.pos) (b.len - b.pos) := by
  have hpos := v.pos
  have hlen := v.len
  have hsmall := v.small
  have hback := v.backed
  unfold compact
  by_cases hzero : b.pos = 0
  · refine ⟨b, m, if_pos hzero, Kept.refl v, hzero, by omega, ?_⟩
    rw [hzero, Nat.add_zero]
  · rw [if_neg hzero]
    by_cases hall : b.len ≤ b.pos
    · refine ⟨b.clear, m, if_pos hall, v.moved rfl rfl (Nat.le_refl _) (Nat.zero_le _), rfl, ?_, ?_⟩
      · exact (Nat.sub_eq_zero_of_le hall).symm
      · rw [Nat.sub_eq_zero_of_le hall]
        simp [Lib.Blocks.read]
    · have hread := Lib.Blocks.read_length (m := m) (o := b.data + b.pos) (w := b.len - b.pos)
        (by omega)
      obtain ⟨hstore, kept⟩ := store_bytes v 0
          (Lib.Blocks.read m (b.data + b.pos) (b.len - b.pos)) (by omega)
      refine ⟨{ b with len := b.len - b.pos, pos := 0 }, _, ?_,
        kept.trans (kept.valid.moved rfl rfl (Nat.zero_le _) ?_), rfl, rfl, ?_⟩
      · rw [if_neg hall, readable_eq v, load_bytes v (by omega), ok_bind, hstore, ok_bind,
          u32_of_lt (by omega)]
      · dsimp only
        omega
      · have same := Lib.Blocks.read_write_same (m := m) (o := b.data + 0)
          (b := Lib.Blocks.read m (b.data + b.pos) (b.len - b.pos)) (by omega)
        rw [hread] at same
        exact same

theorem find_spec (v : Valid m b) (bt : UInt8) (offset : Nat) : ∃ r, b.find m bt offset = .ok r := by
  have hpos := v.pos
  have hlen := v.len
  have hsmall := v.small
  unfold find
  rw [u32Sub_of_le hpos (by omega)]
  by_cases hout : b.len - b.pos ≤ offset
  · exact ⟨-1, if_pos hout⟩
  · have inside : b.pos + offset + (b.len - b.pos - offset) ≤ b.cap := by omega
    rw [if_neg hout, usize_of_lt (by omega), usizeSub_of_le (by omega) (by omega)]
    dsimp only
    rw [load_bytes v inside, ok_bind]
    split
    · exact ⟨_, rfl⟩
    · exact ⟨_, rfl⟩

theorem fill_spec (v : Valid m b) (bt : UInt8) (length : Nat) :
    ∃ r b' m', b.fill m bt length = .ok (r, b', m') ∧ Kept m b m' b' := by
  have hpos := v.pos
  have hlen := v.len
  obtain ⟨k, b₁, hclamp, hk, kept, hp, hl⟩ := clamp_spec v length (b.cap - b.pos)
  have hcap := kept.cap
  unfold fill
  rw [writable_eq v, hclamp]
  dsimp only
  by_cases hzero : k = 0
  · exact ⟨0, b₁, m, if_pos hzero, kept⟩
  · obtain ⟨hstore, kept₂⟩ := store_bytes kept.valid b₁.pos
        (List.replicate k bt) (by rw [List.length_replicate]; omega)
    rw [if_neg hzero, hstore, ok_bind]
    exact ⟨_, _, _, rfl, kept.trans (kept₂.trans (advance_kept kept₂.valid (by omega)))⟩

theorem overfill_spec (v : Valid m b) (bt : UInt8) (length : Nat) :
    ∃ r b' m', b.overfill m bt length = .ok (r, b', m') ∧ Kept m b m' b' := by
  obtain ⟨k, b₁, hclamp, hk, kept, -, -⟩ := clamp_spec v length b.cap
  have hcap := kept.cap
  unfold overfill
  rw [hclamp]
  dsimp only
  by_cases hzero : k = 0
  · exact ⟨0, b₁, m, if_pos hzero, kept⟩
  · obtain ⟨hstore, kept₂⟩ := store_bytes kept.valid 0
        (List.replicate k bt) (by rw [List.length_replicate]; omega)
    rw [if_neg hzero, hstore, ok_bind]
    exact ⟨_, _, _, rfl, kept.trans kept₂⟩

/-- The guarded copy that ends the reading block operations. -/
theorem copy_out (v : Valid m b) (p : Bool) {k : Nat} (h : offset + k ≤ b.cap) :
    ∃ r, (if !p ∨ k = 0 then .ok (0, [])
      else do
        let bytes ← b.load m offset k
        .ok (i32 k, bytes) : Except Fault (Int × List UInt8)) = .ok r := by
  rw [load_bytes v h, ok_bind]
  split
  · exact ⟨_, rfl⟩
  · exact ⟨_, rfl⟩

theorem getBytes_spec (v : Valid m b) (offset : Nat) (p : Bool) (length : Nat) :
    ∃ r, b.getBytes m offset p length = .ok r := by
  have hlen := v.len
  have hsmall := v.small
  unfold getBytes
  split
  · exact ⟨_, rfl⟩
  · split
    · exact ⟨_, rfl⟩
    · rw [usizeSub_of_le (by omega) (by omega)]
      apply copy_out v
      split <;> omega

theorem setBytes_spec (v : Valid m b) (offset : Nat) (p : Option (Nat → UInt8)) (length : Nat) :
    ∃ r b' m', b.setBytes m offset p length = .ok (r, b', m') ∧ Kept m b m' b' := by
  have hlen := v.len
  have hsmall := v.small
  unfold setBytes
  by_cases hout : b.len < offset ∨ usizeSub b.len offset < length
  · exact ⟨-1, b.fail, m, if_pos hout, fail_kept v⟩
  · rw [if_neg hout]
    have inside : ¬ b.len < offset ∧ ¬ usizeSub b.len offset < length := not_or.1 hout
    rw [usizeSub_of_le (by omega) (by omega)] at inside
    cases p with
    | none => exact ⟨0, b, m, rfl, Kept.refl v⟩
    | some p =>
      dsimp only
      split
      · exact ⟨0, b, m, rfl, Kept.refl v⟩
      · obtain ⟨hstore, kept⟩ := store_bytes v offset
          ((List.range length).map p) (by simp only [List.length_map, List.length_range]; omega)
        rw [hstore, ok_bind]
        exact ⟨_, _, _, rfl, kept⟩

/-- An offset that passes the checks of a relative access. -/
theorem behind_eq (v : Valid m b) {abs : Int} (h : 0 ≤ abs) (h' : abs ≤ b.len) :
    b.behind abs = b.len - abs.toNat := by
  have hlen := v.len
  have hsmall := v.small
  unfold behind
  rw [i64_of_range (by omega) (by omega)]
  omega

theorem peekBytes_spec (v : Valid m b) (offset : Int) (p : Bool) (length : Nat) :
    ∃ r, b.peekBytes m offset p length = .ok r := by
  have hlen := v.len
  unfold peekBytes
  split
  · exact ⟨_, rfl⟩
  · dsimp only
    by_cases hout : b.absPos offset < 0 ∨ (b.len : Int) ≤ b.absPos offset
    · exact ⟨_, if_pos hout⟩
    · rw [if_neg hout, behind_eq v (by omega) (by omega)]
      apply copy_out v
      split <;> omega

theorem pokeBytes_spec (v : Valid m b) (offset : Int) (p : Option (Nat → UInt8)) (length : Nat) :
    ∃ r b' m', b.pokeBytes m offset p length = .ok (r, b', m') ∧ Kept m b m' b' := by
  have hlen := v.len
  unfold pokeBytes
  dsimp only
  by_cases hout : b.absPos offset < 0 ∨ (b.len : Int) < b.absPos offset ∨
      b.behind (b.absPos offset) < length
  · exact ⟨-1, b.fail, m, if_pos hout, fail_kept v⟩
  · rw [if_neg hout]
    have inside : ¬ b.absPos offset < 0 ∧ ¬ (b.len : Int) < b.absPos offset ∧
        ¬ b.behind (b.absPos offset) < length := by simpa only [not_or] using hout
    rw [behind_eq v (by omega) (by omega)] at inside
    cases p with
    | none => exact ⟨0, b, m, rfl, Kept.refl v⟩
    | some p =>
      dsimp only
      split
      · exact ⟨0, b, m, rfl, Kept.refl v⟩
      · obtain ⟨hstore, kept⟩ := store_bytes v (b.absPos offset).toNat
          ((List.range length).map p) (by simp only [List.length_map, List.length_range]; omega)
        rw [hstore, ok_bind]
        exact ⟨_, _, _, rfl, kept⟩

theorem takeBytes_spec (v : Valid m b) (p : Bool) (length : Nat) :
    ∃ r out b', b.takeBytes m p length = .ok (r, out, b') ∧ Kept m b m b' := by
  have hpos := v.pos
  have hlen := v.len
  have hsmall := v.small
  obtain ⟨k, b₁, hclamp, hk, kept, hp, hl⟩ := clamp_spec v length (b.len - b.pos)
  have hcap := kept.cap
  have inside : b₁.pos + k ≤ b₁.cap := by omega
  unfold takeBytes
  rw [readable_eq v, hclamp]
  dsimp only
  split
  · exact ⟨_, _, b₁, rfl, kept⟩
  · rw [load_bytes kept.valid inside, ok_bind, u32_add_of_lt (by omega)]
    refine ⟨_, _, _, rfl, kept.trans (kept.valid.moved rfl rfl ?_ kept.valid.len)⟩
    dsimp only
    omega

theorem putBytes_spec (v : Valid m b) (p : Option (Nat → UInt8)) (length : Nat) :
    ∃ r b' m', b.putBytes m p length = .ok (r, b', m') ∧ Kept m b m' b' := by
  have hpos := v.pos
  have hlen := v.len
  obtain ⟨k, b₁, hclamp, hk, kept, hp, hl⟩ := clamp_spec v length (b.cap - b.pos)
  have hcap := kept.cap
  unfold putBytes
  rw [writable_eq v, hclamp]
  dsimp only
  cases p with
  | none => exact ⟨0, b₁, m, rfl, kept⟩
  | some p =>
    dsimp only
    by_cases hzero : k = 0
    · exact ⟨0, b₁, m, if_pos hzero, kept⟩
    · obtain ⟨hstore, kept₂⟩ := store_bytes kept.valid b₁.pos
        ((List.range k).map p) (by simp only [List.length_map, List.length_range]; omega)
      rw [if_neg hzero, hstore, ok_bind]
      exact ⟨_, _, _, rfl, kept.trans (kept₂.trans (advance_kept kept₂.valid (by omega)))⟩

section

variable (host : Endian) {w : Width}

@[simp] theorem ofWord_length (x : BitVec w.bits) : (ofWord host w x).length = w.bytes :=
  encode_length ..

theorem put_spec (v : Valid m b) (x : BitVec w.bits) :
    ∃ b' m', put host w b m x = .ok (b', m') ∧ Kept m b m' b' := by
  have hpos := v.pos
  have hlen := v.len
  unfold put
  rw [writable_eq v]
  by_cases hfull : b.cap - b.pos < w.bytes
  · exact ⟨b.fail, m, if_pos hfull, fail_kept v⟩
  · have inside : b.pos + w.bytes ≤ b.cap := by
      have : 0 < w.bytes := by cases w <;> decide
      omega
    obtain ⟨hstore, kept⟩ := store_bytes v b.pos
        (ofWord host w (b.swap host w x)) (by rw [ofWord_length]; exact inside)
    rw [if_neg hfull, hstore, ok_bind]
    exact ⟨_, _, rfl, kept.trans (advance_kept kept.valid inside)⟩

theorem take_spec (v : Valid m b) : ∃ x b', take host w b m = .ok (x, b') ∧ Kept m b m b' := by
  have hpos := v.pos
  have hlen := v.len
  have hsmall := v.small
  unfold take
  rw [readable_eq v]
  by_cases hshort : b.len - b.pos < w.bytes
  · exact ⟨0, b.fail, if_pos hshort, fail_kept v⟩
  · have inside : b.pos + w.bytes ≤ b.len := by
      have : 0 < w.bytes := by cases w <;> decide
      omega
    have fits : b.pos + w.bytes ≤ b.cap := Nat.le_trans inside hlen
    rw [if_neg hshort, load_bytes v fits, ok_bind, u32_of_lt (by omega)]
    exact ⟨_, _, rfl, v.moved rfl rfl inside hlen⟩

/-- What the check of a typed peek lets through. -/
theorem peekOutside_spec (v : Valid m b) {abs : Int} (h : ¬ b.peekOutside w abs) :
    0 ≤ abs ∧ abs.toNat + w.bytes ≤ b.len := by
  have hlen := v.len
  have hsmall := v.small
  cases w with
  | u8 =>
    simp only [peekOutside, Bool.or_eq_true, decide_eq_true_eq, not_or] at h
    simp only [Width.bytes]
    omega
  | u16 | u32 | u64 =>
    simp only [peekOutside, Bool.or_eq_true, decide_eq_true_eq, not_or] at h
    obtain ⟨⟨low, high⟩, room⟩ := h
    rw [i64_of_range (by omega) (by omega)] at room
    simp only [Width.bytes] at room ⊢
    omega

theorem peek_spec (v : Valid m b) (offset : Int) : ∃ x, peek host w b m offset = .ok x := by
  have hlen := v.len
  unfold peek
  dsimp only
  by_cases hout : b.peekOutside w (b.absPos offset) = true
  · exact ⟨0, if_pos hout⟩
  · obtain ⟨-, inside⟩ := peekOutside_spec v hout
    have fits : (b.absPos offset).toNat + w.bytes ≤ b.cap := Nat.le_trans inside hlen
    rw [if_neg hout, load_bytes v fits, ok_bind]
    exact ⟨_, rfl⟩

/-- What the check of a typed access at an absolute offset lets through. -/
theorem getOutside_spec (v : Valid m b)
    (h : ¬ (b.len ≤ offset ∨ usizeSub b.len offset < w.bytes)) : offset + w.bytes ≤ b.len := by
  have hlen := v.len
  have hsmall := v.small
  obtain ⟨low, room⟩ := not_or.1 h
  rw [usizeSub_of_le (by omega) (by omega)] at room
  omega

theorem get_spec (v : Valid m b) (offset : Nat) : ∃ x, get host w b m offset = .ok x := by
  have hlen := v.len
  unfold get
  by_cases hout : b.len ≤ offset ∨ usizeSub b.len offset < w.bytes
  · exact ⟨0, if_pos hout⟩
  · have inside := getOutside_spec v hout
    have fits : offset + w.bytes ≤ b.cap := Nat.le_trans inside hlen
    rw [if_neg hout, load_bytes v fits, ok_bind]
    exact ⟨_, rfl⟩

theorem set_spec (v : Valid m b) (offset : Nat) (x : BitVec w.bits) :
    ∃ r b' m', set host w b m offset x = .ok (r, b', m') ∧ Kept m b m' b' := by
  have hlen := v.len
  unfold set
  by_cases hout : b.len ≤ offset ∨ usizeSub b.len offset < w.bytes
  · exact ⟨-1, b.fail, m, if_pos hout, fail_kept v⟩
  · have inside := getOutside_spec v hout
    obtain ⟨hstore, kept⟩ := store_bytes v offset
        (ofWord host w (b.swap host w x)) (by rw [ofWord_length]; omega)
    rw [if_neg hout, hstore, ok_bind]
    exact ⟨0, b, _, rfl, kept⟩

end

/-! ## Cursors and views -/

theorem seek_kept (v : Valid m b) (offset : Nat) : Kept m b m (b.seek offset).2 := by
  have hlen := v.len
  have hsmall := v.small
  unfold seek
  by_cases hout : b.len < offset
  · rw [if_pos hout]
    exact fail_kept v
  · rw [if_neg hout, u32_of_lt (by omega)]
    exact v.moved rfl rfl (Nat.le_of_not_lt hout) hlen

theorem reseek_kept (v : Valid m b) (offset : Nat) : Kept m b m (b.reseek offset).2 := by
  have hlen := v.len
  have hsmall := v.small
  unfold reseek
  by_cases hout : b.len < offset
  · rw [if_pos hout]
    exact fail_kept v
  · rw [if_neg hout, u32_of_lt (by omega), u32Sub_of_le (by omega) (by omega)]
    exact v.moved rfl rfl (Nat.sub_le _ _) hlen

theorem skip_kept (v : Valid m b) (length : Nat) : Kept m b m (b.skip length).2 := by
  have hpos := v.pos
  have hlen := v.len
  have hsmall := v.small
  obtain ⟨k, b₁, hclamp, hk, kept, hp, hl⟩ := clamp_spec v length (b.len - b.pos)
  have inside : b₁.pos + k ≤ b₁.len := by omega
  unfold skip
  rw [readable_eq v, hclamp]
  dsimp only
  rw [u32_add_of_lt (by omega)]
  exact kept.trans (kept.valid.moved rfl rfl inside kept.valid.len)

theorem commit_kept (v : Valid m b) (length : Nat) : Kept m b m (b.commit length).2 := by
  have hpos := v.pos
  have hlen := v.len
  obtain ⟨k, b₁, hclamp, hk, kept, hp, hl⟩ := clamp_spec v length (b.cap - b.pos)
  have hcap := kept.cap
  unfold commit
  rw [writable_eq v, hclamp]
  exact kept.trans (advance_kept kept.valid (by omega))

theorem truncate_kept (v : Valid m b) (newLen : Nat) : Kept m b m (b.truncate newLen) := by
  have hpos := v.pos
  have hlen := v.len
  have hsmall := v.small
  unfold truncate
  by_cases hlong : b.len ≤ newLen
  · rw [if_pos hlong]
    exact Kept.refl v
  · rw [if_neg hlong, u32_of_lt (by omega)]
    apply v.moved
    · rfl
    · rfl
    · dsimp only
      split <;> omega
    · exact Nat.le_trans (Nat.le_of_not_le hlong) hlen

theorem init_valid {data cap : Nat} (h : data + u32 cap ≤ m.length) : Valid m (init data cap) where
  pos := Nat.le_refl _
  len := Nat.zero_le _
  small := u32_lt _
  backed := h

theorem from_valid {data cap : Nat} (len : Nat) (h : data + u32 cap ≤ m.length) :
    Valid m («from» data cap len) where
  pos := Nat.zero_le _
  len := by
    unfold «from» init
    dsimp only
    split <;> omega
  small := u32_lt _
  backed := h

/-- A view that lies in the part of its parent from `start` on. -/
structure Within (b : Bytes) (start : Nat) (view : Bytes) : Prop where
  inside : start ≤ b.cap
  data : view.data = b.data + start
  stop : view.data + view.cap = b.data + b.cap
  pos : view.pos = 0
  endian : view.endian = b.endian
  hlswap : view.hlswap = b.hlswap

theorem since_spec (v : Valid m b) {start end_ : Nat} {view : Bytes}
    (h : b.since start end_ = some view) : Within b start view ∧ Valid m view := by
  have hlen := v.len
  have hsmall := v.small
  have hback := v.backed
  unfold since at h
  dsimp only at h
  generalize (if end_ = 0 then b.len else end_) = stop at h
  by_cases hout : stop < start ∨ b.cap < stop
  · simp [hout] at h
  · rw [if_neg hout, Option.some.injEq] at h
    obtain ⟨order, fits⟩ := not_or.1 hout
    have hstart : u32 start = start := u32_of_lt (by omega)
    have hcap : u32Sub b.cap (u32 start) = b.cap - start := by
      rw [hstart, u32Sub_of_le (by omega) hsmall]
    have hview : u32 (usizeSub stop start) = stop - start := by
      rw [usizeSub_of_le (by omega) (by omega), u32_of_lt (by omega)]
    subst h
    constructor
    · constructor
      · omega
      · rfl
      · dsimp only
        omega
      · rfl
      · rfl
      · rfl
    · constructor
      · exact Nat.zero_le _
      · dsimp only
        omega
      · dsimp only
        omega
      · dsimp only
        omega

/-! ## Runs -/

/-- A call on one buffer. -/
inductive Call
  | rewind
  | clear
  | setEndian (byteOrder : Endian)
  | setHlswap (wordSwap : Bool)
  | seek (offset : Nat)
  | reseek (offset : Nat)
  | skip (length : Nat)
  | commit (length : Nat)
  | truncate (newLen : Nat)
  | compact
  | find (bt : UInt8) (offset : Nat)
  | fill (bt : UInt8) (length : Nat)
  | overfill (bt : UInt8) (length : Nat)
  | getBytes (offset : Nat) (p : Bool) (length : Nat)
  | setBytes (offset : Nat) (p : Option (Nat → UInt8)) (length : Nat)
  | peekBytes (offset : Int) (p : Bool) (length : Nat)
  | pokeBytes (offset : Int) (p : Option (Nat → UInt8)) (length : Nat)
  | takeBytes (p : Bool) (length : Nat)
  | putBytes (p : Option (Nat → UInt8)) (length : Nat)
  | put (w : Width) (v : BitVec w.bits)
  | take (w : Width)
  | peek (w : Width) (offset : Int)
  | get (w : Width) (offset : Nat)
  | set (w : Width) (offset : Nat) (v : BitVec w.bits)

/-- What a call returns, and the block or value that it reads. -/
inductive Answer
  | done
  | int (r : Int)
  | block (r : Int) (bytes : List UInt8)
  | value (w : Width) (v : BitVec w.bits)

section

variable (host : Endian)

def call (m : Mem) (b : Bytes) : Call → Except Fault (Answer × Bytes × Mem)
  | .rewind => .ok (.done, b.rewind, m)
  | .clear => .ok (.done, b.clear, m)
  | .setEndian e => .ok (.done, b.setEndian e, m)
  | .setHlswap s => .ok (.done, b.setHlswap s, m)
  | .seek n => .ok (.int (b.seek n).1, (b.seek n).2, m)
  | .reseek n => .ok (.int (b.reseek n).1, (b.reseek n).2, m)
  | .skip n => .ok (.int (b.skip n).1, (b.skip n).2, m)
  | .commit n => .ok (.int (b.commit n).1, (b.commit n).2, m)
  | .truncate n => .ok (.done, b.truncate n, m)
  | .compact => do
    let (b, m) ← b.compact m
    .ok (.done, b, m)
  | .find bt n => do
    let r ← b.find m bt n
    .ok (.int r, b, m)
  | .fill bt n => do
    let (r, b, m) ← b.fill m bt n
    .ok (.int r, b, m)
  | .overfill bt n => do
    let (r, b, m) ← b.overfill m bt n
    .ok (.int r, b, m)
  | .getBytes o p n => do
    let (r, bytes) ← b.getBytes m o p n
    .ok (.block r bytes, b, m)
  | .setBytes o p n => do
    let (r, b, m) ← b.setBytes m o p n
    .ok (.int r, b, m)
  | .peekBytes o p n => do
    let (r, bytes) ← b.peekBytes m o p n
    .ok (.block r bytes, b, m)
  | .pokeBytes o p n => do
    let (r, b, m) ← b.pokeBytes m o p n
    .ok (.int r, b, m)
  | .takeBytes p n => do
    let (r, bytes, b) ← b.takeBytes m p n
    .ok (.block r bytes, b, m)
  | .putBytes p n => do
    let (r, b, m) ← b.putBytes m p n
    .ok (.int r, b, m)
  | .put w v => do
    let (b, m) ← put host w b m v
    .ok (.done, b, m)
  | .take w => do
    let (v, b) ← take host w b m
    .ok (.value w v, b, m)
  | .peek w o => do
    let v ← peek host w b m o
    .ok (.value w v, b, m)
  | .get w o => do
    let v ← get host w b m o
    .ok (.value w v, b, m)
  | .set w o v => do
    let (r, b, m) ← set host w b m o v
    .ok (.int r, b, m)

theorem call_spec (v : Valid m b) (c : Call) :
    ∃ a b' m', call host m b c = .ok (a, b', m') ∧ Kept m b m' b' := by
  cases c with
  | rewind => exact ⟨_, _, _, rfl, v.moved rfl rfl (Nat.zero_le _) v.len⟩
  | clear => exact ⟨_, _, _, rfl, v.moved rfl rfl (Nat.le_refl _) (Nat.zero_le _)⟩
  | setEndian e => exact ⟨_, _, _, rfl, v.moved rfl rfl v.pos v.len⟩
  | setHlswap s => exact ⟨_, _, _, rfl, v.moved rfl rfl v.pos v.len⟩
  | seek n => exact ⟨_, _, _, rfl, seek_kept v n⟩
  | reseek n => exact ⟨_, _, _, rfl, reseek_kept v n⟩
  | skip n => exact ⟨_, _, _, rfl, skip_kept v n⟩
  | commit n => exact ⟨_, _, _, rfl, commit_kept v n⟩
  | truncate n => exact ⟨_, _, _, rfl, truncate_kept v n⟩
  | compact =>
    obtain ⟨b', m', h, kept, -⟩ := compact_spec v
    exact ⟨_, b', m', by rw [call, h, ok_bind], kept⟩
  | find bt n =>
    obtain ⟨r, h⟩ := find_spec v bt n
    exact ⟨_, b, m, by rw [call, h, ok_bind], Kept.refl v⟩
  | fill bt n =>
    obtain ⟨r, b', m', h, kept⟩ := fill_spec v bt n
    exact ⟨_, b', m', by rw [call, h, ok_bind], kept⟩
  | overfill bt n =>
    obtain ⟨r, b', m', h, kept⟩ := overfill_spec v bt n
    exact ⟨_, b', m', by rw [call, h, ok_bind], kept⟩
  | getBytes o p n =>
    obtain ⟨⟨r, bytes⟩, h⟩ := getBytes_spec v o p n
    exact ⟨_, b, m, by rw [call, h, ok_bind], Kept.refl v⟩
  | setBytes o p n =>
    obtain ⟨r, b', m', h, kept⟩ := setBytes_spec v o p n
    exact ⟨_, b', m', by rw [call, h, ok_bind], kept⟩
  | peekBytes o p n =>
    obtain ⟨⟨r, bytes⟩, h⟩ := peekBytes_spec v o p n
    exact ⟨_, b, m, by rw [call, h, ok_bind], Kept.refl v⟩
  | pokeBytes o p n =>
    obtain ⟨r, b', m', h, kept⟩ := pokeBytes_spec v o p n
    exact ⟨_, b', m', by rw [call, h, ok_bind], kept⟩
  | takeBytes p n =>
    obtain ⟨r, bytes, b', h, kept⟩ := takeBytes_spec v p n
    exact ⟨_, b', m, by rw [call, h, ok_bind], kept⟩
  | putBytes p n =>
    obtain ⟨r, b', m', h, kept⟩ := putBytes_spec v p n
    exact ⟨_, b', m', by rw [call, h, ok_bind], kept⟩
  | put w x =>
    obtain ⟨b', m', h, kept⟩ := put_spec host v x
    exact ⟨_, b', m', by rw [call, h, ok_bind], kept⟩
  | take w =>
    obtain ⟨x, b', h, kept⟩ := take_spec host (w := w) v
    exact ⟨_, b', m, by rw [call, h, ok_bind], kept⟩
  | peek w o =>
    obtain ⟨x, h⟩ := peek_spec host (w := w) v o
    exact ⟨_, b, m, by rw [call, h, ok_bind], Kept.refl v⟩
  | get w o =>
    obtain ⟨x, h⟩ := get_spec host (w := w) v o
    exact ⟨_, b, m, by rw [call, h, ok_bind], Kept.refl v⟩
  | set w o x =>
    obtain ⟨r, b', m', h, kept⟩ := set_spec host v o x
    exact ⟨_, b', m', by rw [call, h, ok_bind], kept⟩

/-- Buffers under their names, over one memory. -/
structure World where
  mem : Mem
  bufs : Nat → Bytes

/-- No buffer is set up: each lies empty at address zero. -/
def start (mem : Mem) : World := ⟨mem, fun _ => init 0 0⟩

/-- Calls of a client that holds buffers and views under names. -/
inductive Op
  | init (name data cap : Nat)
  | «from» (name data cap len : Nat)
  | since (name view start end_ : Nat)
  | readableSince (name view : Nat)
  | writableSince (name view : Nat)
  | on (name : Nat) (c : Call)

def World.bind (s : World) (name : Nat) (b : Bytes) : World :=
  { s with bufs := Function.update s.bufs name b }

/-- A view under its name, if there is one. -/
def World.bindView (s : World) (name : Nat) : Option Bytes → Answer × World
  | none => (.int (-1), s)
  | some b => (.int 0, s.bind name b)

def step (s : World) : Op → Except Fault (Answer × World)
  | .init name data cap => .ok (.done, s.bind name (init data cap))
  | .from name data cap len => .ok (.done, s.bind name («from» data cap len))
  | .since name view start end_ => .ok (s.bindView view ((s.bufs name).since start end_))
  | .readableSince name view => .ok (s.bindView view (s.bufs name).readableSince)
  | .writableSince name view => .ok (s.bindView view (s.bufs name).writableSince)
  | .on name c => do
    let (a, b, m) ← call host s.mem (s.bufs name) c
    .ok (a, { s.bind name b with mem := m })

end

/-- A buffer is set up over memory that is there. -/
def Allowed (s : World) : Op → Prop
  | .init _ data cap | .from _ data cap _ => data + u32 cap ≤ s.mem.length
  | .since .. | .readableSince .. | .writableSince .. | .on .. => True

instance (s : World) : DecidablePred (Allowed s)
  | .init .. | .from .. => inferInstanceAs (Decidable (_ ≤ _))
  | .since .. | .readableSince .. | .writableSince .. | .on .. =>
    inferInstanceAs (Decidable True)

/-- `pos_ ≤ len_ ≤ cap_` and memory behind `cap_`, for every buffer and view. -/
def Sound (s : World) : Prop := ∀ name, Valid s.mem (s.bufs name)

/-- The view lies in its parent from `from` on, or nothing happened. -/
def Viewed (s : World) (name view start : Nat) (a : Answer) (s' : World) : Prop :=
  (a = .int 0 ∧ Within (s.bufs name) start (s'.bufs view) ∧
    s' = s.bind view (s'.bufs view)) ∨ (a = .int (-1) ∧ s' = s)

/-- What a call does, apart from keeping every buffer valid. -/
def Effect (s : World) (op : Op) (a : Answer) (s' : World) : Prop :=
  match op with
  | .init name data cap => s' = s.bind name (init data cap)
  | .from name data cap len => s' = s.bind name («from» data cap len)
  | .since name view start _ => Viewed s name view start a s'
  | .readableSince name view | .writableSince name view =>
    Viewed s name view (s.bufs name).pos a s'
  | .on name c =>
    (∀ other, other ≠ name → s'.bufs other = s.bufs other) ∧
      Kept s.mem (s.bufs name) s'.mem (s'.bufs name) ∧
      (c = .compact →
        (s'.bufs name).pos = 0 ∧
        (s'.bufs name).len = (s.bufs name).len - (s.bufs name).pos ∧
        Lib.Blocks.read s'.mem (s.bufs name).data (s'.bufs name).len =
          Lib.Blocks.read s.mem ((s.bufs name).data + (s.bufs name).pos) (s'.bufs name).len)

variable {host : Endian} {s : World}

theorem Sound.bind (hs : Sound s) (name : Nat) (hb : Valid s.mem b) : Sound (s.bind name b) := by
  intro other
  by_cases hother : other = name
  · subst hother
    simpa only [World.bind, Function.update_self] using hb
  · simpa only [World.bind, Function.update_of_ne hother] using hs other

theorem bindView_spec (hs : Sound s) {name view start : Nat} {end_ : Nat} :
    Viewed s name view start (s.bindView view ((s.bufs name).since start end_)).1
      (s.bindView view ((s.bufs name).since start end_)).2 ∧
    Sound (s.bindView view ((s.bufs name).since start end_)).2 := by
  cases hview : (s.bufs name).since start end_ with
  | none => exact ⟨Or.inr ⟨rfl, rfl⟩, hs⟩
  | some b =>
    obtain ⟨within, valid⟩ := since_spec (hs name) hview
    have here : (s.bind view b).bufs view = b := Function.update_self ..
    constructor
    · left
      simp only [World.bindView, here]
      exact ⟨trivial, within, trivial⟩
    · exact hs.bind view valid

theorem on_spec (hs : Sound s) (name : Nat) (c : Call) :
    ∃ a s', step host s (.on name c) = .ok (a, s') ∧ Effect s (.on name c) a s' ∧ Sound s' := by
  obtain ⟨a, b, m, hcall, kept⟩ := call_spec host (hs name) c
  refine ⟨a, { s.bind name b with mem := m }, ?_, ⟨?_, ?_, ?_⟩, ?_⟩
  · rw [step, hcall, ok_bind]
  · intro other hother
    exact Function.update_of_ne hother ..
  · simpa only [World.bind, Function.update_self] using kept
  · rintro rfl
    obtain ⟨b', m', hcompact, -, hpos, hlen, hread⟩ := compact_spec (hs name)
    rw [call, hcompact, ok_bind, Except.ok.injEq] at hcall
    obtain ⟨-, rfl, rfl⟩ : Answer.done = a ∧ b' = b ∧ m' = m := by simpa using hcall
    simp only [World.bind, Function.update_self]
    exact ⟨hpos, hlen, hlen ▸ hread⟩
  · intro other
    by_cases hother : other = name
    · subst hother
      simpa only [World.bind, Function.update_self] using kept.valid
    · have v := hs other
      simp only [World.bind, Function.update_of_ne hother]
      exact ⟨v.pos, v.len, v.small, kept.length ▸ v.backed⟩

theorem step_spec (hs : Sound s) (op : Op) (h : Allowed s op) :
    ∃ a s', step host s op = .ok (a, s') ∧ Effect s op a s' ∧ Sound s' := by
  cases op with
  | init name data cap => exact ⟨_, _, rfl, rfl, hs.bind name (init_valid h)⟩
  | «from» name data cap len => exact ⟨_, _, rfl, rfl, hs.bind name (from_valid len h)⟩
  | since name view start end_ =>
    obtain ⟨viewed, sound⟩ := bindView_spec hs
    exact ⟨_, _, rfl, viewed, sound⟩
  | readableSince name view =>
    obtain ⟨viewed, sound⟩ := bindView_spec hs
    exact ⟨_, _, rfl, viewed, sound⟩
  | writableSince name view =>
    obtain ⟨viewed, sound⟩ := bindView_spec hs
    exact ⟨_, _, rfl, viewed, sound⟩
  | on name c => exact on_spec hs name c

theorem start_sound (mem : Mem) : Sound (start mem) := by
  intro name
  exact init_valid (Nat.zero_le _)

/-- **Byte buffers stay inside their memory.** Over every run of calls, with any
arguments, no access leaves `cap_`, the cursors of every buffer and view stay in
order, a view lies in its parent, and compacting keeps the unread bytes. -/
theorem bytes_runs (host : Endian) (mem : Mem) (ops : List Op)
    (h : Meets (step host) Allowed (start mem) ops) :
    Along (step host) Sound Effect (start mem) ops :=
  along_of_meets (fun _ hs => hs) (fun _ op hs hop => step_spec hs op hop) (start_sound mem) h

/-- A view of a full buffer, and lengths and offsets at the ends of their types. -/
theorem bytes_runs_edges :
    Along (step .little) Sound Effect (start [0, 0, 0, 0])
      [.from 0 0 4 3, .since 0 1 2 4, .on 1 (.fill 7 (2 ^ 64 - 1)), .on 0 (.seek 1),
        .on 0 (.peekBytes (-(2 ^ 31)) true 1), .on 0 (.peek .u16 (2 ^ 31 - 1)), .on 0 .compact] := by
  apply bytes_runs
  decide

end Coter.Bytes
