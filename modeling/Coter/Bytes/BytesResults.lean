import Coter.Bytes.BytesError

/-!
# The `int` results of a byte buffer

* `Hit`, `Found`: the search for a byte as the header documents it;
* `find_iff`: when `ct_bytes_find` answers so;
* `Moves`: what it is to move a number of bytes, for each operation that counts them;
* `counts_iff`: when such an operation returns the number of bytes it moved.
-/

namespace Coter.Bytes

variable {m m' : Mem} {b b' : Bytes} {offset r : Nat} {bt : UInt8}

/-! ## The search -/

/-- The byte `bt` lies `r` bytes behind the cursor, and not in front of `offset`. -/
def Hit (b : Bytes) (m : Mem) (bt : UInt8) (offset r : Nat) : Prop :=
  offset ≤ r ∧ b.pos + r < b.len ∧ m[b.data + b.pos + r]? = some bt

/-- The difference of two `int`s that `ct_bytes_find` takes when it finds the byte `r` bytes
behind the cursor. -/
def findDifference (b : Bytes) (offset r : Nat) : Int :=
  i32 (b.pos + r : Nat) - i32 (b.pos + offset : Nat)

/-- The documented answer: the first hit, counted from the cursor, or `-1` without one. The
difference taken for it is no signed overflow. -/
def Found (b : Bytes) (m : Mem) (bt : UInt8) (offset : Nat) : Prop :=
  (∃ r, IsLeast { r | Hit b m bt offset r } r ∧ b.find m bt offset = .ok r ∧
    -(2 ^ 31) ≤ findDifference b offset r ∧ findDifference b offset r < 2 ^ 31) ∨
  (∀ r, ¬ Hit b m bt offset r) ∧ b.find m bt offset = .ok (-1)

/-- The search is one through the bytes from `offset` on. -/
theorem find_eq (v : Valid m b) (h : b.pos + offset < b.len) :
    b.find m bt offset =
      match (Lib.Blocks.read m (b.data + (b.pos + offset))
        (b.len - b.pos - offset)).findIdx? (fun x => x == bt) with
      | none => .ok (-1)
      | some i => .ok (i32 (findDifference b offset (offset + i))) := by
  have hlen := v.len
  have hsmall := v.small
  unfold find
  rw [u32Sub_of_le v.pos (by omega), if_neg (by omega), usize_of_lt (by omega),
    usizeSub_of_le (by omega) (by omega)]
  dsimp only
  rw [load_bytes v (by omega), ok_bind]
  cases (Lib.Blocks.read m (b.data + (b.pos + offset))
      (b.len - b.pos - offset)).findIdx? (fun x => x == bt) with
  | none => rfl
  | some i =>
    simp only [findDifference, Nat.cast_add, add_assoc]

theorem find_outside (v : Valid m b) (h : b.len ≤ b.pos + offset) :
    b.find m bt offset = .ok (-1) := by
  have hpos := v.pos
  have hlen := v.len
  have hsmall := v.small
  unfold find
  rw [u32Sub_of_le hpos (by omega), if_pos (by omega)]

/-- The place `i` of what is searched. -/
theorem searched (m : Mem) (bt : UInt8) (h : b.pos + offset < b.len) (i : Nat) :
    (Lib.Blocks.read m (b.data + (b.pos + offset)) (b.len - b.pos - offset))[i]? = some bt ↔
      Hit b m bt offset (offset + i) := by
  rw [Lib.Blocks.read_getElem?]
  unfold Hit
  have place : b.data + (b.pos + offset) + i = b.data + b.pos + (offset + i) := by omega
  rw [place]
  split
  · next inside =>
    constructor
    · intro found
      exact ⟨by omega, by omega, found⟩
    · exact fun hit => hit.2.2
  · next outside =>
    constructor
    · intro none
      cases none
    · rintro ⟨-, inside, -⟩
      omega

theorem find_none (v : Valid m b) (none : ∀ r, ¬ Hit b m bt offset r) :
    b.find m bt offset = .ok (-1) := by
  by_cases h : b.pos + offset < b.len
  · have absent : (Lib.Blocks.read m (b.data + (b.pos + offset))
        (b.len - b.pos - offset)).findIdx? (fun x => x == bt) = .none := by
      rw [List.findIdx?_eq_none_iff]
      intro x hx
      obtain ⟨i, hi⟩ := List.mem_iff_getElem?.1 hx
      rw [Bool.eq_false_iff]
      intro same
      rw [beq_iff_eq] at same
      exact none _ ((searched m bt h i).1 (same ▸ hi))
    rw [find_eq v h, absent]
  · exact find_outside v (by omega)

theorem find_least (v : Valid m b) (least : IsLeast { r | Hit b m bt offset r } r) :
    b.find m bt offset = .ok (i32 (findDifference b offset r)) := by
  obtain ⟨hit, first⟩ := least
  have behind : offset ≤ r := hit.1
  have inside : b.pos + r < b.len := hit.2.1
  have h : b.pos + offset < b.len := by omega
  have present : (Lib.Blocks.read m (b.data + (b.pos + offset))
      (b.len - b.pos - offset)).findIdx? (fun x => x == bt) = some (r - offset) := by
    have here := (searched m bt h (r - offset)).2
      (by rw [Nat.add_sub_cancel' behind]; exact hit)
    obtain ⟨bound, value⟩ := List.getElem?_eq_some_iff.1 here
    rw [List.findIdx?_eq_some_iff_getElem]
    refine ⟨bound, by rw [value]; exact beq_self_eq_true bt, ?_⟩
    intro j earlier same
    have hit' := (searched m bt h j).1
      (List.getElem?_eq_some_iff.2 ⟨by omega, by simpa using same⟩)
    have := first hit'
    omega
  rw [find_eq v h, present]
  dsimp only
  rw [Nat.add_sub_cancel' behind]

theorem exists_least (h : Hit b m bt offset r) :
    ∃ first, IsLeast { r | Hit b m bt offset r } first :=
  ⟨_, Nat.sInf_mem ⟨r, h⟩, fun _ => Nat.sInf_le⟩

/-- The difference is the place of the hit, counted from the cursor, only if the search
begins there and no `int` changes its sign on the way. -/
theorem difference_iff (behind : offset ≤ r) (small : b.pos + r < 2 ^ 32) :
    findDifference b offset r = r ↔
      offset = 0 ∧ (b.pos + r < 2 ^ 31 ∨ 2 ^ 31 ≤ b.pos) := by
  unfold findDifference i32
  rw [Int.bmod_def, Int.bmod_def]
  omega

/-- **Search for a byte.** `ct_bytes_find` answers as documented exactly if there is nothing
to find, or the search begins at the cursor and there is a hit below `2 ^ 31` in the buffer,
or any hit if the cursor is not below it either. -/
theorem find_iff (v : Valid m b) :
    Found b m bt offset ↔
      (∀ r, ¬ Hit b m bt offset r) ∨
        offset = 0 ∧ ∃ r, Hit b m bt 0 r ∧ (b.pos + r < 2 ^ 31 ∨ 2 ^ 31 ≤ b.pos) := by
  have hlen := v.len
  have hsmall := v.small
  constructor
  · rintro (⟨r, least, returned, low, high⟩ | ⟨none, -⟩)
    · have hit : Hit b m bt offset r := least.1
      have behind : offset ≤ r := hit.1
      have inside : b.pos + r < b.len := hit.2.1
      rw [find_least v least, i32_of_range low high] at returned
      have exact : findDifference b offset r = r := Except.ok.inj returned
      obtain ⟨rfl, near⟩ := (difference_iff behind (by omega)).1 exact
      exact Or.inr ⟨rfl, r, hit, near⟩
    · exact Or.inl none
  · rintro (none | ⟨rfl, r, hit, near⟩)
    · exact Or.inr ⟨none, find_none v none⟩
    · obtain ⟨first, least⟩ := exists_least hit
      have inside : b.pos + first < b.len := least.1.2.1
      have earlier : first ≤ r := least.2 hit
      have same := (difference_iff (b := b) (Nat.zero_le first) (by omega)).2
        ⟨rfl, by omega⟩
      have low : -(2 ^ 31) ≤ findDifference b 0 first := by omega
      have high : findDifference b 0 first < 2 ^ 31 := by omega
      refine Or.inl ⟨first, least, ?_, low, high⟩
      rw [find_least v least, i32_of_range low high, same]

/-- A search from the cursor, which has moved. -/
theorem find_iff_from_cursor :
    Found { «from» 0 4 4 with pos := 1 } [5, 7, 8, 7] 8 0 := by
  have v : Valid [5, 7, 8, 7] { «from» 0 4 4 with pos := 1 } :=
    ⟨by decide, by decide, by decide, by decide⟩
  exact (find_iff v).2 (Or.inr ⟨rfl, 1, ⟨by decide, by decide, rfl⟩, Or.inl (by decide)⟩)

/-- The search is resumed behind the first hit: the next one lies two bytes behind the
cursor, and `ct_bytes_find` returns `1`. -/
theorem resumed_search_misplaced :
    Valid [7, 8, 7] («from» 0 3 3) ∧ ¬ Found («from» 0 3 3) [7, 8, 7] 7 1 := by
  refine ⟨from_valid 3 (by decide), ?_⟩
  have returned : («from» 0 3 3).find [7, 8, 7] 7 1 = .ok 1 := by decide
  rintro (⟨r, ⟨⟨-, inside, value⟩, -⟩, found, -⟩ | ⟨-, found⟩)
  · have one : (r : Int) = 1 := Except.ok.inj (found.symm.trans returned)
    obtain rfl : r = 1 := by omega
    exact absurd value (by decide)
  · exact absurd (found.symm.trans returned) (by decide)

/-! ## Bytes moved -/

/-- An operation that returns how many bytes it moved. The relative offset is an `int`. -/
inductive Transfer
  | skip (length : Nat)
  | commit (length : Nat)
  | fill (bt : UInt8) (length : Nat)
  | overfill (bt : UInt8) (length : Nat)
  | putBytes (p : Option (Nat → UInt8)) (length : Nat)
  | takeBytes (p : Bool) (length : Nat)
  | getBytes (offset : Nat) (p : Bool) (length : Nat)
  | peekBytes (offset : BitVec 32) (p : Bool) (length : Nat)

namespace Transfer

/-- The bytes asked for. Nothing is moved from or to `NULL`. -/
def request : Transfer → Nat
  | .skip length | .commit length | .fill _ length | .overfill _ length => length
  | .putBytes p length => if p.isSome then length else 0
  | .takeBytes p length | .getBytes _ p length | .peekBytes _ p length => if p then length else 0

/-- The bytes there are. -/
def room (b : Bytes) : Transfer → Nat
  | .skip _ | .takeBytes .. => b.len - b.pos
  | .commit _ | .fill .. | .putBytes .. => b.cap - b.pos
  | .overfill .. => b.cap
  | .getBytes offset .. => b.len - offset
  | .peekBytes offset .. =>
    if b.pos + offset.toInt < 0 then 0 else b.len - (b.pos + offset.toInt).toNat

def moved (b : Bytes) (t : Transfer) : Nat := min t.request (t.room b)

/-- The operations that advance the cursor. -/
def advances : Transfer → Bool
  | .skip _ | .commit _ | .fill .. | .putBytes .. | .takeBytes .. => true
  | .overfill .. | .getBytes .. | .peekBytes .. => false

/-- The result, the block read, and what the operation leaves. -/
def run (m : Mem) (b : Bytes) : Transfer → Except Fault (Int × List UInt8 × Bytes × Mem)
  | .skip n => .ok ((b.skip n).1, [], (b.skip n).2, m)
  | .commit n => .ok ((b.commit n).1, [], (b.commit n).2, m)
  | .fill bt n => do
    let (r, b, m) ← b.fill m bt n
    .ok (r, [], b, m)
  | .overfill bt n => do
    let (r, b, m) ← b.overfill m bt n
    .ok (r, [], b, m)
  | .putBytes p n => do
    let (r, b, m) ← b.putBytes m p n
    .ok (r, [], b, m)
  | .takeBytes p n => do
    let (r, bytes, b) ← b.takeBytes m p n
    .ok (r, bytes, b, m)
  | .getBytes offset p n => do
    let (r, bytes) ← b.getBytes m offset p n
    .ok (r, bytes, b, m)
  | .peekBytes offset p n => do
    let (r, bytes) ← b.peekBytes m offset.toInt p n
    .ok (r, bytes, b, m)

/-- The block that a writing operation stores, cut to `k` bytes. -/
def source (k : Nat) : Transfer → List UInt8
  | .fill bt _ | .overfill bt _ => List.replicate k bt
  | .putBytes (some p) _ => (List.range k).map p
  | .putBytes none _ | .skip _ | .commit _ | .takeBytes .. | .getBytes .. | .peekBytes .. => []

/-- Where in the buffer the bytes are. -/
def place (b : Bytes) : Transfer → Nat
  | .skip _ | .commit _ | .fill .. | .putBytes .. | .takeBytes .. => b.pos
  | .overfill .. => 0
  | .getBytes offset .. => offset
  | .peekBytes offset .. => (b.pos + offset.toInt).toNat

/-- The operations that hand out the bytes. -/
def reads : Transfer → Bool
  | .takeBytes .. | .getBytes .. | .peekBytes .. => true
  | .skip _ | .commit _ | .fill .. | .overfill .. | .putBytes .. => false

end Transfer

/-- The operation has moved `k` bytes: it stored `k` of them, handed `k` of them out or
stepped over `k` of them. -/
structure Moves (m : Mem) (b : Bytes) (t : Transfer) (k : Nat) (bytes : List UInt8) (b' : Bytes)
    (m' : Mem) : Prop where
  stored : m' = Lib.Blocks.write m (b.data + t.place b) (t.source k)
  handed : bytes = if t.reads then Lib.Blocks.read m (b.data + t.place b) k else []
  whole : t.reads → bytes.length = k
  stepped : b'.pos = if t.advances then b.pos + k else b.pos

/-- An operation that found nothing to move. -/
theorem moves_none {t : Transfer} (source : t.source 0 = []) (pos : b'.pos = b.pos) :
    Moves m b t 0 [] b' m where
  stored := by rw [source, Lib.Blocks.write_nil]
  handed := by split <;> simp [Lib.Blocks.read]
  whole _ := rfl
  stepped := by rw [pos, Nat.add_zero, ite_self]

/-- An operation that only moves the cursor. -/
theorem moves_cursor {t : Transfer} {k : Nat} (source : t.source k = []) (reads : t.reads = false)
    (pos : b'.pos = if t.advances then b.pos + k else b.pos) : Moves m b t k [] b' m where
  stored := by rw [source, Lib.Blocks.write_nil]
  handed := by rw [reads]; rfl
  whole h := by rw [reads] at h; cases h
  stepped := pos

/-- The guarded store that ends the writing operations. -/
theorem store_moves {t : Transfer} {k : Nat} {b₁ b₂ : Bytes} (kept : Kept m b m b₁)
    (reads : t.reads = false) (size : (t.source k).length = k) (room : t.place b + k ≤ b.cap)
    (still : b₁.pos = b.pos) (pos : b₂.pos = if t.advances then b.pos + k else b.pos) :
    ∃ b' m', (if k = 0 then .ok (0, b₁, m)
      else do
        let m ← b₁.store m (t.place b) (t.source k)
        .ok (i32 k, b₂, m) : Except Fault (Int × Bytes × Mem)) = .ok (i32 k, b', m') ∧
      Moves m b t k [] b' m' := by
  have hcap := kept.cap
  by_cases hzero : k = 0
  · subst hzero
    exact ⟨b₁, m, rfl, moves_none (List.length_eq_zero_iff.1 size) still⟩
  · obtain ⟨hstore, -⟩ := store_bytes kept.valid (t.place b) (t.source k) (by omega)
    rw [if_neg hzero, hstore, ok_bind]
    refine ⟨b₂, _, rfl, ?_⟩
    constructor
    · rw [kept.data]
    · rw [reads]
      rfl
    · intro h
      rw [reads] at h
      cases h
    · exact pos

/-- The guarded copy that ends the reading operations, whatever they return with it. -/
theorem load_moves {γ : Type} (f : Int → List UInt8 → Bytes → γ) {t : Transfer} {k : Nat}
    {b₁ c : Bytes} {p : Bool} (kept : Kept m b m b₁) (reads : t.reads = true)
    (source : ∀ k, t.source k = []) (room : t.place b + k ≤ b.cap) (still : b₁.pos = b.pos)
    (pos : c.pos = if t.advances then b.pos + k else b.pos) :
    ∃ bytes b', (if !p ∨ k = 0 then .ok (f 0 [] b₁)
      else do
        let bytes ← b₁.load m (t.place b) k
        .ok (f (i32 k) bytes c) : Except Fault γ) =
          .ok (f (i32 (if p then k else 0 : Nat)) bytes b') ∧
      Moves m b t (if p then k else 0) bytes b' m ∧ (b' = b₁ ∨ b' = c) := by
  have hcap := kept.cap
  have hback := kept.valid.backed
  have hdata := kept.data
  by_cases hzero : p = false ∨ k = 0
  · have none : (if p then k else 0) = 0 := by
      rcases hzero with rfl | rfl
      · rfl
      · exact ite_self 0
    rw [none, if_pos (by simpa using hzero)]
    exact ⟨[], b₁, rfl, moves_none (source 0) still, Or.inl rfl⟩
  · obtain ⟨given, some⟩ := not_or.1 hzero
    rw [Bool.not_eq_false] at given
    subst given
    rw [if_neg (by simpa using some), load_bytes kept.valid (by omega), ok_bind]
    refine ⟨_, c, rfl, ?_, Or.inr rfl⟩
    constructor
    · exact (source k ▸ Lib.Blocks.write_nil m _).symm
    · rw [reads, hdata]
      rfl
    · intro _
      exact Lib.Blocks.read_length (by omega)
    · exact pos

/-! ## The operations that move bytes -/

theorem skip_moves (v : Valid m b) (n : Nat) : ∃ b',
    b.skip n = (i32 ((Transfer.skip n).moved b), b') ∧
      Moves m b (.skip n) ((Transfer.skip n).moved b) [] b' m := by
  have hpos := v.pos
  have hlen := v.len
  have hsmall := v.small
  have hmoved : (Transfer.skip n).moved b = min n (b.len - b.pos) := rfl
  obtain ⟨k, b₁, hclamp, hk, -, hp, -⟩ := clamp_spec v n (b.len - b.pos)
  unfold skip
  rw [readable_eq v, hclamp, hmoved, ← hk]
  refine ⟨_, rfl, moves_cursor rfl rfl ?_⟩
  dsimp only
  rw [u32_add_of_lt (by omega), hp]
  rfl

theorem commit_moves (v : Valid m b) (n : Nat) : ∃ b',
    b.commit n = (i32 ((Transfer.commit n).moved b), b') ∧
      Moves m b (.commit n) ((Transfer.commit n).moved b) [] b' m := by
  have hpos := v.pos
  have hlen := v.len
  have hsmall := v.small
  have hmoved : (Transfer.commit n).moved b = min n (b.cap - b.pos) := rfl
  obtain ⟨k, b₁, hclamp, hk, -, hp, -⟩ := clamp_spec v n (b.cap - b.pos)
  unfold commit
  rw [writable_eq v, hclamp, hmoved, ← hk]
  refine ⟨_, rfl, moves_cursor rfl rfl ?_⟩
  rw [advance_pos (by omega), hp]
  rfl

theorem fill_moves (v : Valid m b) (bt : UInt8) (n : Nat) : ∃ b' m',
    b.fill m bt n = .ok (i32 ((Transfer.fill bt n).moved b), b', m') ∧
      Moves m b (.fill bt n) ((Transfer.fill bt n).moved b) [] b' m' := by
  have hpos := v.pos
  have hlen := v.len
  have hsmall := v.small
  have hmoved : (Transfer.fill bt n).moved b = min n (b.cap - b.pos) := rfl
  obtain ⟨k, b₁, hclamp, hk, kept, hp, -⟩ := clamp_spec v n (b.cap - b.pos)
  unfold fill
  rw [writable_eq v, hclamp, hmoved, ← hk]
  dsimp only
  rw [hp]
  apply store_moves (t := .fill bt n) kept rfl List.length_replicate
  · change b.pos + k ≤ b.cap
    omega
  · exact hp
  · rw [advance_pos (by omega), hp]
    rfl

theorem overfill_moves (v : Valid m b) (bt : UInt8) (n : Nat) : ∃ b' m',
    b.overfill m bt n = .ok (i32 ((Transfer.overfill bt n).moved b), b', m') ∧
      Moves m b (.overfill bt n) ((Transfer.overfill bt n).moved b) [] b' m' := by
  have hmoved : (Transfer.overfill bt n).moved b = min n b.cap := rfl
  obtain ⟨k, b₁, hclamp, hk, kept, hp, -⟩ := clamp_spec v n b.cap
  unfold overfill
  rw [hclamp, hmoved, ← hk]
  apply store_moves (t := .overfill bt n) kept rfl List.length_replicate
  · change 0 + k ≤ b.cap
    omega
  · exact hp
  · exact hp

theorem putBytes_moves (v : Valid m b) (p : Option (Nat → UInt8)) (n : Nat) : ∃ b' m',
    b.putBytes m p n = .ok (i32 ((Transfer.putBytes p n).moved b), b', m') ∧
      Moves m b (.putBytes p n) ((Transfer.putBytes p n).moved b) [] b' m' := by
  have hpos := v.pos
  have hlen := v.len
  have hsmall := v.small
  obtain ⟨k, b₁, hclamp, hk, kept, hp, -⟩ := clamp_spec v n (b.cap - b.pos)
  unfold putBytes
  rw [writable_eq v, hclamp]
  cases p with
  | none =>
    have hmoved : (Transfer.putBytes none n).moved b = 0 := Nat.zero_min _
    rw [hmoved]
    exact ⟨b₁, m, rfl, moves_none rfl hp⟩
  | some p =>
    have hmoved : (Transfer.putBytes (some p) n).moved b = min n (b.cap - b.pos) := rfl
    rw [hmoved, ← hk]
    dsimp only
    rw [hp]
    apply store_moves (t := .putBytes (some p) n) kept rfl
    · exact (List.length_map p).trans List.length_range
    · change b.pos + k ≤ b.cap
      omega
    · exact hp
    · rw [advance_pos (by omega), hp]
      rfl

theorem min_request (p : Bool) (n room : Nat) :
    min (if p then n else 0) room = if p then min n room else 0 := by
  cases p with
  | true => rfl
  | false => exact Nat.zero_min _

theorem takeBytes_moves (v : Valid m b) (p : Bool) (n : Nat) : ∃ bytes b',
    b.takeBytes m p n = .ok (i32 ((Transfer.takeBytes p n).moved b), bytes, b') ∧
      Moves m b (.takeBytes p n) ((Transfer.takeBytes p n).moved b) bytes b' m := by
  have hpos := v.pos
  have hlen := v.len
  have hsmall := v.small
  have hmoved : (Transfer.takeBytes p n).moved b = if p then min n (b.len - b.pos) else 0 :=
    min_request p n _
  obtain ⟨k, b₁, hclamp, hk, kept, hp, -⟩ := clamp_spec v n (b.len - b.pos)
  unfold takeBytes
  rw [readable_eq v, hclamp, hmoved, ← hk]
  dsimp only
  rw [hp]
  obtain ⟨bytes, b', returned, moves, -⟩ := load_moves (fun r bytes b => (r, bytes, b))
    (t := .takeBytes p n) (k := k) (c := { b₁ with pos := u32 (b.pos + u32 k) }) (p := p) kept
    rfl (fun _ => rfl) (by
      change b.pos + k ≤ b.cap
      omega) hp (u32_add_of_lt (by omega))
  exact ⟨bytes, b', returned, moves⟩

theorem getBytes_moves (v : Valid m b) (offset : Nat) (p : Bool) (n : Nat) : ∃ bytes,
    b.getBytes m offset p n = .ok (i32 ((Transfer.getBytes offset p n).moved b), bytes) ∧
      Moves m b (.getBytes offset p n) ((Transfer.getBytes offset p n).moved b) bytes b m := by
  have hlen := v.len
  have hsmall := v.small
  have hmoved : (Transfer.getBytes offset p n).moved b = if p then min n (b.len - offset) else 0 :=
    min_request p n _
  rw [hmoved]
  unfold getBytes
  by_cases hzero : n = 0
  · subst hzero
    rw [if_pos rfl, Nat.zero_min, ite_self]
    exact ⟨[], rfl, moves_none rfl rfl⟩
  · rw [if_neg hzero]
    by_cases hout : b.len ≤ offset
    · rw [if_pos hout, Nat.sub_eq_zero_of_le hout, Nat.min_zero, ite_self]
      exact ⟨[], rfl, moves_none rfl rfl⟩
    · have cut : (if usizeSub b.len offset < n then usizeSub b.len offset else n) =
          min n (b.len - offset) := by
        rw [usizeSub_of_le (by omega) (by omega)]
        split <;> omega
      rw [if_neg hout, cut]
      obtain ⟨bytes, b', returned, moves, same⟩ := load_moves (fun r bytes _ => (r, bytes))
        (t := .getBytes offset p n) (k := min n (b.len - offset)) (c := b) (p := p) (Kept.refl v)
        rfl (fun _ => rfl) (by
          change offset + min n (b.len - offset) ≤ b.cap
          omega) rfl rfl
      obtain rfl : b' = b := same.elim id id
      exact ⟨bytes, returned, moves⟩

theorem peek_room_outside {offset : BitVec 32} {p : Bool} {n : Nat}
    (outside : b.pos + offset.toInt < 0 ∨ (b.len : Int) ≤ b.pos + offset.toInt) :
    (Transfer.peekBytes offset p n).room b = 0 := by
  dsimp only [Transfer.room]
  split <;> omega

theorem peek_room_inside {offset : BitVec 32} {p : Bool} {n : Nat}
    (inside : ¬ (b.pos + offset.toInt < 0 ∨ (b.len : Int) ≤ b.pos + offset.toInt)) :
    (Transfer.peekBytes offset p n).room b = b.len - (b.pos + offset.toInt).toNat :=
  if_neg (fun low => inside (Or.inl low))

theorem peekBytes_moves (v : Valid m b) (offset : BitVec 32) (p : Bool) (n : Nat) : ∃ bytes,
    b.peekBytes m offset.toInt p n =
        .ok (i32 ((Transfer.peekBytes offset p n).moved b), bytes) ∧
      Moves m b (.peekBytes offset p n) ((Transfer.peekBytes offset p n).moved b) bytes b m := by
  have hlen := v.len
  have hmoved : (Transfer.peekBytes offset p n).moved b =
      if p then min n ((Transfer.peekBytes offset p n).room b) else 0 := min_request p n _
  have habs : b.absPos offset.toInt = b.pos + offset.toInt := by
    apply absPos_eq v
    · exact BitVec.le_toInt offset
    · exact BitVec.toInt_lt
  rw [hmoved]
  unfold peekBytes
  by_cases hzero : n = 0
  · subst hzero
    rw [if_pos rfl, Nat.zero_min, ite_self]
    exact ⟨[], rfl, moves_none rfl rfl⟩
  · rw [if_neg hzero]
    dsimp only
    rw [habs]
    by_cases hout : b.pos + offset.toInt < 0 ∨ (b.len : Int) ≤ b.pos + offset.toInt
    · rw [if_pos hout, peek_room_outside hout, Nat.min_zero, ite_self]
      exact ⟨[], rfl, moves_none rfl rfl⟩
    · have cut : (if b.behind (b.pos + offset.toInt) < n then b.behind (b.pos + offset.toInt)
          else n) = min n (b.len - (b.pos + offset.toInt).toNat) := by
        rw [behind_eq v (by omega) (by omega)]
        split <;> omega
      rw [if_neg hout, peek_room_inside hout, cut]
      obtain ⟨bytes, b', returned, moves, same⟩ := load_moves (fun r bytes _ => (r, bytes))
        (t := .peekBytes offset p n) (k := min n (b.len - (b.pos + offset.toInt).toNat)) (c := b)
        (p := p) (Kept.refl v) rfl (fun _ => rfl) (by
          change (b.pos + offset.toInt).toNat + _ ≤ b.cap
          omega) rfl rfl
      obtain rfl : b' = b := same.elim id id
      exact ⟨bytes, returned, moves⟩

/-- Every operation moves as much of what is asked for as there is, and returns the number
converted to `int`. -/
theorem run_moves (v : Valid m b) (t : Transfer) : ∃ bytes b' m',
    t.run m b = .ok (i32 (t.moved b), bytes, b', m') ∧ Moves m b t (t.moved b) bytes b' m' := by
  cases t with
  | skip n =>
    obtain ⟨b', h, moves⟩ := skip_moves v n
    exact ⟨[], b', m, by rw [Transfer.run, h], moves⟩
  | commit n =>
    obtain ⟨b', h, moves⟩ := commit_moves v n
    exact ⟨[], b', m, by rw [Transfer.run, h], moves⟩
  | fill bt n =>
    obtain ⟨b', m', h, moves⟩ := fill_moves v bt n
    exact ⟨[], b', m', by rw [Transfer.run, h, ok_bind], moves⟩
  | overfill bt n =>
    obtain ⟨b', m', h, moves⟩ := overfill_moves v bt n
    exact ⟨[], b', m', by rw [Transfer.run, h, ok_bind], moves⟩
  | putBytes p n =>
    obtain ⟨b', m', h, moves⟩ := putBytes_moves v p n
    exact ⟨[], b', m', by rw [Transfer.run, h, ok_bind], moves⟩
  | takeBytes p n =>
    obtain ⟨bytes, b', h, moves⟩ := takeBytes_moves v p n
    exact ⟨bytes, b', m, by rw [Transfer.run, h, ok_bind], moves⟩
  | getBytes offset p n =>
    obtain ⟨bytes, h, moves⟩ := getBytes_moves v offset p n
    exact ⟨bytes, b, m, by rw [Transfer.run, h, ok_bind], moves⟩
  | peekBytes offset p n =>
    obtain ⟨bytes, h, moves⟩ := peekBytes_moves v offset p n
    exact ⟨bytes, b, m, by rw [Transfer.run, h, ok_bind], moves⟩

/-- The operation returns the number of the bytes that it moved, which is the change of the
cursor if it advances. -/
def Counts (m : Mem) (b : Bytes) (t : Transfer) : Prop :=
  ∃ (k : Nat) (bytes : List UInt8) (b' : Bytes) (m' : Mem), t.run m b = .ok (k, bytes, b', m') ∧
    k = t.moved b ∧ Moves m b t k bytes b' m' ∧ (t.advances → b'.pos = b.pos + k)

theorem i32_nat_iff {n : Nat} (h : n < 2 ^ 32) (k : Nat) : i32 n = k ↔ n = k ∧ n < 2 ^ 31 := by
  unfold i32
  rw [Int.bmod_def]
  omega

theorem room_le (v : Valid m b) (t : Transfer) : t.room b ≤ b.cap := by
  have hlen := v.len
  cases t with
  | peekBytes offset p n =>
    dsimp only [Transfer.room]
    split <;> omega
  | _ =>
    dsimp only [Transfer.room]
    omega

/-- **Results of the moving operations.** The result is the number of bytes moved exactly if
what is asked for or what there is of it is below `2 ^ 31`. -/
theorem counts_iff (v : Valid m b) (t : Transfer) :
    Counts m b t ↔ t.request < 2 ^ 31 ∨ t.room b < 2 ^ 31 := by
  have hsmall := v.small
  have hroom := room_le v t
  have hmoved : t.moved b = min t.request (t.room b) := rfl
  obtain ⟨bytes, b', m', returned, moves⟩ := run_moves v t
  constructor
  · rintro ⟨k, _, _, _, returned', rfl, -, -⟩
    have result : i32 (t.moved b) = t.moved b :=
      (Prod.mk.inj (Except.ok.inj (returned.symm.trans returned'))).1
    have := ((i32_nat_iff (by omega) _).1 result).2
    omega
  · intro near
    have result := (i32_nat_iff (n := t.moved b) (by omega) _).2 ⟨rfl, by omega⟩
    rw [result] at returned
    refine ⟨t.moved b, bytes, b', m', returned, rfl, moves, ?_⟩
    intro advances
    rw [moves.stepped, if_pos advances]

/-- Two of three bytes are skipped, and the third is all that there is behind them. -/
theorem counts_iff_short :
    Counts [1, 2, 3] («from» 0 3 3) (.skip 2) ∧
      Counts [1, 2, 3] («from» 0 3 3) (.getBytes 2 true (2 ^ 40)) := by
  have v : Valid [1, 2, 3] («from» 0 3 3) := from_valid 3 (by decide)
  exact ⟨(counts_iff v _).2 (Or.inl (by decide)), (counts_iff v _).2 (Or.inr (by decide))⟩

/-- A full buffer of two gibibytes is skipped to its end, and the result is negative. -/
theorem skip_all_negative :
    Valid (List.replicate (2 ^ 31) 0) («from» 0 (2 ^ 31) (2 ^ 31)) ∧
      ((«from» 0 (2 ^ 31) (2 ^ 31)).skip (2 ^ 31)).1 = -(2 ^ 31) ∧
      ((«from» 0 (2 ^ 31) (2 ^ 31)).skip (2 ^ 31)).2.pos = 2 ^ 31 ∧
      ¬ Counts (List.replicate (2 ^ 31) 0) («from» 0 (2 ^ 31) (2 ^ 31)) (.skip (2 ^ 31)) := by
  have negative : ((«from» 0 (2 ^ 31) (2 ^ 31)).skip (2 ^ 31)).1 = -(2 ^ 31) := by decide
  refine ⟨from_valid _ (by rw [List.length_replicate]; decide), negative, by decide, ?_⟩
  rintro ⟨k, _, _, _, returned, -⟩
  have result := (Prod.mk.inj (Except.ok.inj returned)).1
  omega

end Coter.Bytes
