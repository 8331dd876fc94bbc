import Coter.Bytes.BytesRun

/-!
# Fields of a byte buffer

* `Field.layout`: the bytes of a field, from the two options alone;
* `split_swap`: a swapped value has its bytes in that layout on every host;
* `putAll_spec`, `takeAll_spec`: fields put in order lie one behind the other, and
  are taken back as they were;
* `fields_round_trip`: both, and the accesses at the offset of a field.
-/

namespace Coter

open Lib.ByteOrder

/-- The widths that the word swap applies to. -/
def Width.paired : Width → Bool
  | .u8 | .u16 => false
  | .u32 | .u64 => true

theorem Width.paired_even {w : Width} (h : w.paired) : w.bytes % 2 = 0 := by
  cases w with
  | u8 | u16 => cases h
  | u32 | u64 => rfl

theorem Width.bits_le (w : Width) : 2 ^ w.bits ≤ 256 ^ w.bytes := by
  cases w <;> decide

namespace Bytes

/-! ## The layout -/

def pairs (hlswap : Bool) (w : Width) (bytes : List UInt8) : List UInt8 :=
  if hlswap && w.paired then swapPairs bytes else bytes

/-- The bytes of a value. -/
def layout (e : Endian) (hlswap : Bool) (w : Width) (v : BitVec w.bits) : List UInt8 :=
  pairs hlswap w (encode e w.bytes v.toNat)

/-- Bytes of one order in the other one, where the orders differ. -/
def turn (e host : Endian) (bytes : List UInt8) : List UInt8 :=
  if e = host then bytes else bytes.reverse

theorem arrange_turn (e host : Endian) (bytes : List UInt8) :
    host.arrange (turn e host bytes) = e.arrange bytes := by
  cases e <;> cases host <;> simp [turn, Endian.arrange]

theorem turn_turn (e host : Endian) (bytes : List UInt8) :
    turn e host (turn e host bytes) = bytes := by
  unfold turn
  split
  · rfl
  · exact List.reverse_reverse bytes

theorem turn_length (e host : Endian) (bytes : List UInt8) :
    (turn e host bytes).length = bytes.length := by
  unfold turn
  split
  · rfl
  · exact List.length_reverse

theorem pairs_pairs (hlswap : Bool) (w : Width) (bytes : List UInt8) :
    pairs hlswap w (pairs hlswap w bytes) = bytes := by
  unfold pairs
  split
  · exact swapPairs_swapPairs bytes
  · rfl

theorem pairs_length (hlswap : Bool) (w : Width) (bytes : List UInt8) :
    (pairs hlswap w bytes).length = bytes.length := by
  unfold pairs
  split
  · exact swapPairs_length bytes
  · rfl

theorem pairs_arrange (hlswap : Bool) {w : Width} (e : Endian) {bytes : List UInt8}
    (h : bytes.length = w.bytes) :
    pairs hlswap w (e.arrange bytes) = e.arrange (pairs hlswap w bytes) := by
  unfold pairs
  split
  · rename_i hswap
    rw [Bool.and_eq_true] at hswap
    exact swapPairs_arrange e (h ▸ Width.paired_even hswap.2)
  · rfl

theorem pairs_turn (hlswap : Bool) {w : Width} (e host : Endian) {bytes : List UInt8}
    (h : bytes.length = w.bytes) :
    pairs hlswap w (turn e host bytes) = turn e host (pairs hlswap w bytes) := by
  unfold turn
  split
  · rfl
  · exact pairs_arrange hlswap .big h

/-- The swap of a value as it rearranges the bytes of the variable. -/
theorem split_swap (host : Endian) (b : Bytes) (w : Width) (v : BitVec w.bits) :
    split w.bytes (b.swap host w v).toNat =
      pairs b.hlswap w (turn b.endian host (split w.bytes v.toNat)) := by
  unfold pairs turn
  cases w with
  | u8 =>
    have single : (split 1 v.toNat).reverse = split 1 v.toNat := rfl
    simp [swap, Width.paired, Width.bytes, single]
  | u16 =>
    by_cases he : b.endian = host
    · simp [swap, Width.paired, he]
    · simp only [swap, Width.paired, Bool.and_false, Bool.false_eq_true, ne_eq, he,
        not_false_eq_true, ↓reduceIte]
      exact Binary.split_bswap16 v
  | u32 =>
    by_cases he : b.endian = host
    · by_cases hs : b.hlswap
      · simp only [swap, Width.paired, Bool.and_true, he, hs, ↓reduceIte]
        exact Binary.split_bswap16_lanes32 v
      · simp [swap, Width.paired, he, hs]
    · by_cases hs : b.hlswap
      · simp only [swap, Width.paired, Bool.and_true, he, hs, ↓reduceIte]
        exact Binary.split_reverse16_lanes32 v
      · simp only [swap, Width.paired, Bool.and_true, Bool.false_eq_true, he, hs, ↓reduceIte]
        exact Binary.split_bswap32 v
  | u64 =>
    by_cases he : b.endian = host
    · by_cases hs : b.hlswap
      · simp only [swap, Width.paired, Bool.and_true, he, hs, ↓reduceIte]
        exact Binary.split_bswap16_lanes64 v
      · simp [swap, Width.paired, he, hs]
    · by_cases hs : b.hlswap
      · simp only [swap, Width.paired, Bool.and_true, he, hs, ↓reduceIte]
        exact Binary.split_reverse16_lanes64 v
      · simp only [swap, Width.paired, Bool.and_true, Bool.false_eq_true, he, hs, ↓reduceIte]
        exact Binary.split_bswap64 v

/-- What is copied out of the variable does not depend on the host. -/
theorem ofWord_swap (host : Endian) (b : Bytes) (w : Width) (v : BitVec w.bits) :
    ofWord host w (b.swap host w v) = layout b.endian b.hlswap w v := by
  have hlength : (turn b.endian host (split w.bytes v.toNat)).length = w.bytes := by
    rw [turn_length, split_length]
  rw [ofWord, encode, split_swap, ← pairs_arrange b.hlswap host hlength, arrange_turn, layout,
    encode]

theorem swap_swap (host : Endian) (b : Bytes) (w : Width) (v : BitVec w.bits) :
    b.swap host w (b.swap host w v) = v := by
  apply Binary.split_inj w.bits_le
  rw [split_swap, split_swap, ← pairs_turn, pairs_pairs, turn_turn]
  rw [turn_length, split_length]

theorem toWord_ofWord (host : Endian) (w : Width) (v : BitVec w.bits) :
    toWord host w (ofWord host w v) = v := by
  have small := Nat.lt_of_lt_of_le v.isLt w.bits_le
  rw [toWord, ofWord, decode_encode, Nat.mod_eq_of_lt small]
  exact BitVec.eq_of_toNat_eq (by simp)

/-- The value that the layout was made from. -/
theorem swap_toWord_layout (host : Endian) (b : Bytes) (w : Width) (v : BitVec w.bits) :
    b.swap host w (toWord host w (layout b.endian b.hlswap w v)) = v := by
  rw [← ofWord_swap host, toWord_ofWord, swap_swap]

@[simp] theorem layout_length (e : Endian) (hlswap : Bool) (w : Width) (v : BitVec w.bits) :
    (layout e hlswap w v).length = w.bytes := by
  rw [layout, pairs_length, encode_length]

/-! ## Fields in order -/

inductive Field
  | value (w : Width) (v : BitVec w.bits)
  | block (bytes : List UInt8)

/-- What a reader has to know of a field. -/
inductive Shape
  | value (w : Width)
  | block (length : Nat)

namespace Field

def shape : Field → Shape
  | value w _ => .value w
  | block bytes => .block bytes.length

/-- The bytes of a field. -/
def layout (e : Endian) (hlswap : Bool) : Field → List UInt8
  | value w v => Bytes.layout e hlswap w v
  | block bytes => bytes

def size : Field → Nat
  | value w _ => w.bytes
  | block bytes => bytes.length

@[simp] theorem layout_length (e : Endian) (hlswap : Bool) (f : Field) :
    (f.layout e hlswap).length = f.size := by
  cases f with
  | value w v => exact Bytes.layout_length e hlswap w v
  | block bytes => rfl

end Field

def size (fs : List Field) : Nat := (fs.map Field.size).sum

/-- The reference layout of fields in order. -/
def layouts (e : Endian) (hlswap : Bool) (fs : List Field) : List UInt8 :=
  fs.flatMap (Field.layout e hlswap)

@[simp] theorem layouts_length (e : Endian) (hlswap : Bool) (fs : List Field) :
    (layouts e hlswap fs).length = size fs := by
  induction fs with
  | nil => rfl
  | cons f fs ih =>
    simp only [layouts, size, List.flatMap_cons, List.length_append, List.map_cons, List.sum_cons,
      Field.layout_length] at ih ⊢
    rw [ih]

section

variable (host : Endian)

def putField (b : Bytes) (m : Mem) : Field → Except Fault (Bytes × Mem)
  | .value w v => put host w b m v
  | .block bytes => do
    let (_, b, m) ← b.putBytes m (some fun i => bytes.getD i 0) bytes.length
    .ok (b, m)

def putAll (b : Bytes) (m : Mem) : List Field → Except Fault (Bytes × Mem)
  | [] => .ok (b, m)
  | f :: fs => do
    let (b, m) ← putField host b m f
    putAll b m fs

def takeField (b : Bytes) (m : Mem) : Shape → Except Fault (Field × Bytes)
  | .value w => do
    let (v, b) ← take host w b m
    .ok (.value w v, b)
  | .block length => do
    let (_, bytes, b) ← b.takeBytes m true length
    .ok (.block bytes, b)

def takeAll (b : Bytes) (m : Mem) : List Shape → Except Fault (List Field × Bytes)
  | [] => .ok ([], b)
  | s :: shapes => do
    let (f, b) ← takeField host b m s
    let (fs, b) ← takeAll b m shapes
    .ok (f :: fs, b)

end

/-- The buffer after `n` bytes were put at the cursor. -/
def past (b : Bytes) (n : Nat) : Bytes := { b with pos := b.pos + n, len := max b.len (b.pos + n) }

/-- The buffer after `n` bytes were taken at the cursor. -/
def beyond (b : Bytes) (n : Nat) : Bytes := { b with pos := b.pos + n }

variable {host : Endian} {m : Mem} {b : Bytes} {n : Nat}

theorem advance_eq (v : Valid m b) (h : b.pos + n ≤ b.cap) : b.advance n = b.past n := by
  have hsmall := v.small
  have hpos := advance_pos (b := b) (n := n) (by omega)
  have hlen := advance_len (b := b) (n := n) (by omega)
  unfold advance at hpos hlen ⊢
  dsimp only at hpos hlen ⊢
  rw [hlen, hpos]
  rfl

theorem past_valid (v : Valid m b) (h : b.pos + n ≤ b.cap) : Valid m (b.past n) := by
  rw [← advance_eq v h]
  exact (advance_kept v h).valid

theorem beyond_valid (v : Valid m b) (h : b.pos + n ≤ b.len) : Valid m (b.beyond n) :=
  ⟨h, v.len, v.small, v.backed⟩

theorem put_layout (v : Valid m b) {w : Width} (x : BitVec w.bits) (h : b.pos + w.bytes ≤ b.cap) :
    put host w b m x = .ok (b.past w.bytes,
      Lib.Blocks.write m (b.data + b.pos) (layout b.endian b.hlswap w x)) := by
  have fits : ¬ b.cap - b.pos < w.bytes := by omega
  have hstore := (store_bytes v b.pos (layout b.endian b.hlswap w x)
    (by rwa [layout_length])).1
  rw [put, writable_eq v, if_neg fits, ofWord_swap, hstore, ok_bind, advance_eq v h]

theorem copied (bytes : List UInt8) :
    (List.range bytes.length).map (fun i => bytes.getD i 0) = bytes := by
  apply List.ext_getElem
  · simp
  · intro i hi hi'
    simp [hi']

theorem past_zero (v : Valid m b) : b.past 0 = b := by
  unfold past
  rw [Nat.add_zero, Nat.max_eq_left v.pos]

theorem putBytes_layout (v : Valid m b) (bytes : List UInt8) (h : b.pos + bytes.length ≤ b.cap) :
    b.putBytes m (some fun i => bytes.getD i 0) bytes.length =
      .ok (if bytes.length = 0 then 0 else i32 bytes.length, b.past bytes.length,
        Lib.Blocks.write m (b.data + b.pos) bytes) := by
  have room : ¬ b.cap - b.pos < bytes.length := by omega
  have hstore := (store_bytes v b.pos bytes h).1
  rw [putBytes, writable_eq v, clamp, if_neg room]
  dsimp only
  by_cases hzero : bytes.length = 0
  · obtain rfl : bytes = [] := List.length_eq_zero_iff.1 hzero
    simp [Lib.Blocks.write_nil, past_zero v]
  · rw [if_neg hzero, if_neg hzero, copied, hstore, ok_bind, advance_eq v h]

theorem putField_spec (v : Valid m b) (f : Field) (h : b.pos + f.size ≤ b.cap) :
    putField host b m f = .ok (b.past f.size,
      Lib.Blocks.write m (b.data + b.pos) (f.layout b.endian b.hlswap)) := by
  cases f with
  | value w x => exact put_layout v x h
  | block bytes =>
    rw [putField, putBytes_layout v bytes h, ok_bind]
    rfl

theorem takeField_spec (v : Valid m b) (f : Field) (h : b.pos + f.size ≤ b.len)
    (hread : Lib.Blocks.read m (b.data + b.pos) f.size = f.layout b.endian b.hlswap) :
    takeField host b m f.shape = .ok (f, b.beyond f.size) := by
  have hlen := v.len
  have hsmall := v.small
  have fits : b.pos + f.size ≤ b.cap := Nat.le_trans h hlen
  have hload := load_bytes v fits
  cases f with
  | value w x =>
    have there : ¬ b.len - b.pos < w.bytes := by
      simp only [Field.size] at h
      omega
    have hmoved : u32 (b.pos + w.bytes) = b.pos + w.bytes := u32_of_lt (Nat.lt_of_le_of_lt fits hsmall)
    simp only [Field.size, Field.layout] at hload hread
    rw [Field.shape, takeField, take, readable_eq v, if_neg there, hload, ok_bind, ok_bind, hread,
      swap_toWord_layout, hmoved]
    rfl
  | block bytes =>
    have there : ¬ b.len - b.pos < bytes.length := by
      simp only [Field.size] at h
      omega
    have hmoved : u32 (b.pos + u32 bytes.length) = b.pos + bytes.length :=
      u32_add_of_lt (Nat.lt_of_le_of_lt fits hsmall)
    simp only [Field.size, Field.layout] at hload hread
    rw [Field.shape, takeField, takeBytes, readable_eq v, clamp, if_neg there]
    dsimp only
    by_cases hzero : bytes.length = 0
    · obtain rfl : bytes = [] := List.length_eq_zero_iff.1 hzero
      rfl
    · rw [if_neg (by simpa using hzero), hload, ok_bind, ok_bind, hread, hmoved]
      rfl

theorem Valid.rewritten (v : Valid m b) {m' : Mem} (h : m'.length = m.length) : Valid m' b :=
  ⟨v.pos, v.len, v.small, h ▸ v.backed⟩

theorem past_past (b : Bytes) (i j : Nat) : (b.past i).past j = b.past (i + j) := by
  unfold past
  dsimp only
  rw [Nat.add_assoc]
  congr 1
  omega

theorem size_cons (f : Field) (fs : List Field) : size (f :: fs) = f.size + size fs := by
  rw [size, List.map_cons, List.sum_cons, size]

theorem layouts_cons (e : Endian) (hlswap : Bool) (f : Field) (fs : List Field) :
    layouts e hlswap (f :: fs) = f.layout e hlswap ++ layouts e hlswap fs := List.flatMap_cons

theorem putAll_spec (host : Endian) (v : Valid m b) (fs : List Field) (h : b.pos + size fs ≤ b.cap) :
    putAll host b m fs = .ok (b.past (size fs),
      Lib.Blocks.write m (b.data + b.pos) (layouts b.endian b.hlswap fs)) := by
  induction fs generalizing b m with
  | nil => simp [putAll, size, layouts, Lib.Blocks.write_nil, past_zero v]
  | cons f fs ih =>
    rw [size_cons] at h
    have hback := v.backed
    have hlength := Lib.Blocks.write_length (m := m) (b := f.layout b.endian b.hlswap)
      (o := b.data + b.pos) (by rw [Field.layout_length]; omega)
    have valid : Valid _ (b.past f.size) := (past_valid v (by omega)).rewritten hlength
    have rest := ih valid (by unfold past; dsimp only; omega)
    have joined := Lib.Blocks.write_write (m := m) (a := f.layout b.endian b.hlswap)
      (b := layouts b.endian b.hlswap fs) (o := b.data + b.pos)
      (by rw [Field.layout_length, layouts_length]; omega)
    rw [Field.layout_length, Nat.add_assoc] at joined
    rw [putAll, putField_spec v f (by omega), ok_bind]
    dsimp only
    rw [rest, past_past, size_cons, layouts_cons]
    exact congrArg (fun m => Except.ok (b.past (f.size + size fs), m)) joined

theorem takeAll_spec (v : Valid m b) (fs : List Field) (h : b.pos + size fs ≤ b.len)
    (hread : Lib.Blocks.read m (b.data + b.pos) (size fs) = layouts b.endian b.hlswap fs) :
    takeAll host b m (fs.map Field.shape) = .ok (fs, b.beyond (size fs)) := by
  induction fs generalizing b with
  | nil => rfl
  | cons f fs ih =>
    have hlen := v.len
    have hback := v.backed
    rw [size_cons] at h hread
    rw [Lib.Blocks.read_add, layouts_cons] at hread
    have hfirst := Lib.Blocks.read_length (m := m) (o := b.data + b.pos) (w := f.size) (by omega)
    obtain ⟨here, behind⟩ := List.append_inj hread (by rw [hfirst, Field.layout_length])
    rw [Nat.add_assoc] at behind
    have rest := ih (b := b.beyond f.size) (beyond_valid v (by omega))
      (by unfold beyond; dsimp only; omega) behind
    rw [List.map_cons, takeAll, takeField_spec v f (by omega) here, ok_bind]
    dsimp only
    rw [rest, ok_bind, size_cons]
    unfold beyond
    rw [Nat.add_assoc]

/-! ## Access at an offset -/

variable {w : Width} {x : BitVec w.bits} {o : Nat}

/-- The value `x` lies at offset `o`. -/
structure Stored (m : Mem) (b : Bytes) (o : Nat) (w : Width) (x : BitVec w.bits) : Prop where
  inside : o + w.bytes ≤ b.len
  bytes : Lib.Blocks.read m (b.data + o) w.bytes = layout b.endian b.hlswap w x

theorem bytes_pos (w : Width) : 0 < w.bytes := by cases w <;> decide

theorem getOutside_false (v : Valid m b) (h : o + w.bytes ≤ b.len) :
    ¬ (b.len ≤ o ∨ usizeSub b.len o < w.bytes) := by
  have hlen := v.len
  have hsmall := v.small
  have := bytes_pos w
  rw [usizeSub_of_le (by omega) (by omega)]
  omega

theorem get_stored (v : Valid m b) (h : Stored m b o w x) : get host w b m o = .ok x := by
  have hload := load_bytes v (Nat.le_trans h.inside v.len)
  rw [get, if_neg (getOutside_false v h.inside), hload, ok_bind, h.bytes, swap_toWord_layout]

theorem peekOutside_false (v : Valid m b) (h : o + w.bytes ≤ b.len) :
    b.peekOutside w o = false := by
  have hlen := v.len
  have hsmall := v.small
  cases w with
  | u8 =>
    simp only [Width.bytes] at h
    simp only [peekOutside, Bool.or_eq_false_iff, decide_eq_false_iff_not]
    omega
  | u16 | u32 | u64 =>
    simp only [Width.bytes] at h
    have hroom : i64 ((b.len : Int) - o) = b.len - o := i64_of_range (by omega) (by omega)
    simp only [peekOutside, hroom, Bool.or_eq_false_iff, decide_eq_false_iff_not]
    simp only [Width.bytes]
    omega

/-- Relative to any cursor. -/
theorem peek_stored (v : Valid m b) (h : Stored m b o w x) {p : Nat} (hp : p ≤ b.len) :
    peek host w { b with pos := p } m ((o : Int) - p) = .ok x := by
  have hlen := v.len
  have hsmall := v.small
  have inside := h.inside
  have valid : Valid m { b with pos := p } := ⟨hp, v.len, v.small, v.backed⟩
  have habs : ({ b with pos := p } : Bytes).absPos ((o : Int) - p) = o := by
    unfold absPos
    rw [i64_of_range (by dsimp only; omega) (by dsimp only; omega)]
    dsimp only
    omega
  have hload := load_bytes valid (Nat.le_trans h.inside v.len)
  have houtside := peekOutside_false valid h.inside
  rw [peek, habs, houtside]
  dsimp only [Int.toNat_natCast]
  rw [if_neg Bool.false_ne_true, hload, ok_bind]
  dsimp only
  rw [h.bytes]
  exact congrArg Except.ok (swap_toWord_layout host { b with pos := p } w x)

theorem set_layout (v : Valid m b) (h : o + w.bytes ≤ b.len) (y : BitVec w.bits) :
    set host w b m o y = .ok (0, b, Lib.Blocks.write m (b.data + o) (layout b.endian b.hlswap w y)) := by
  have hlen := v.len
  have hstore := (store_bytes v o (layout b.endian b.hlswap w y)
    (by rw [layout_length]; omega)).1
  rw [set, if_neg (getOutside_false v h), ofWord_swap, hstore, ok_bind]

/-! ## The round trip -/

/-- A value among the fields, at the offset behind the fields before it. -/
theorem stored_of_read {fs : List Field} (hback : b.data + b.len ≤ m.length) (hsize : size fs ≤ b.len)
    (hread : Lib.Blocks.read m b.data (size fs) = layouts b.endian b.hlswap fs)
    {before after : List Field} (hfs : fs = before ++ .value w x :: after) :
    Stored m b (size before) w x := by
  have total : size fs = size before + (w.bytes + size after) := by
    subst hfs
    simp [size, Field.size]
  have parts : layouts b.endian b.hlswap fs = layouts b.endian b.hlswap before ++
      (layout b.endian b.hlswap w x ++ layouts b.endian b.hlswap after) := by
    subst hfs
    simp [layouts, Field.layout]
  rw [total, parts, Lib.Blocks.read_add, Lib.Blocks.read_add] at hread
  have hbefore := Lib.Blocks.read_length (m := m) (o := b.data) (w := size before) (by omega)
  have hvalue := Lib.Blocks.read_length (m := m) (o := b.data + size before) (w := w.bytes) (by omega)
  obtain ⟨-, behind⟩ := List.append_inj hread (by rw [hbefore, layouts_length])
  obtain ⟨here, -⟩ := List.append_inj behind (by rw [hvalue, layout_length])
  exact ⟨by omega, here⟩

/-- What the fields `fs` leave in the buffer `b` and the memory `m`, whatever the
host that put them there: any host takes them back, reads each value at its
offset, and overwrites a value there as it would have put it. -/
structure Holds (m : Mem) (b : Bytes) (fs : List Field) : Prop where
  clear : b.overflow = false
  taken : ∀ host, ∃ b', takeAll host b.rewind m (fs.map Field.shape) = .ok (fs, b') ∧
    b'.overflow = false
  got : ∀ host before w x after, fs = before ++ .value w x :: after →
    get host w b m (size before) = .ok x
  peeked : ∀ host before w x after, fs = before ++ .value w x :: after →
    ∀ p, p ≤ b.len → peek host w { b with pos := p } m ((size before : Int) - p) = .ok x
  rewritten : ∀ host host' before w x after, fs = before ++ .value w x :: after →
    ∀ y, ∃ b' m', put host w { b with pos := size before } m y = .ok (b', m') ∧
      set host' w b m (size before) y = .ok (0, b, m')

theorem holds_of_read (v : Valid m b) {fs : List Field} (hclear : b.overflow = false)
    (hsize : size fs ≤ b.len)
    (hread : Lib.Blocks.read m b.data (size fs) = layouts b.endian b.hlswap fs) : Holds m b fs := by
  have hlen := v.len
  have hback := v.backed
  have stored {before after : List Field} {w : Width} {x : BitVec w.bits}
      (hfs : fs = before ++ .value w x :: after) : Stored m b (size before) w x :=
    stored_of_read (by omega) hsize hread hfs
  constructor
  · exact hclear
  · intro host
    have valid : Valid m b.rewind := ⟨Nat.zero_le _, v.len, v.small, v.backed⟩
    refine ⟨b.rewind.beyond (size fs), takeAll_spec valid fs ?_ ?_, hclear⟩
    · exact (Nat.zero_add _).symm ▸ hsize
    · exact hread
  · intro host before w x after hfs
    exact get_stored v (stored hfs)
  · intro host before w x after hfs p hp
    exact peek_stored v (stored hfs) hp
  · intro host host' before w x after hfs y
    have inside := (stored hfs).inside
    have valid : Valid m { b with pos := size before } := by
      refine ⟨?_, v.len, v.small, v.backed⟩
      dsimp only
      omega
    exact ⟨_, _, put_layout valid y (Nat.le_trans inside hlen), set_layout v inside y⟩

/-- **Fields come back as they were put.** Fields that fit into an empty buffer, of
either byte order and with or without the word swap, are put in their reference
layout on every host, and are read back from it by every access on every host. -/
theorem fields_round_trip {m : Mem} {b : Bytes} (v : Valid m b) (hpos : b.pos = 0)
    (hclear : b.overflow = false) (fs : List Field) (h : size fs ≤ b.cap) :
    ∃ b' m', m' = Lib.Blocks.write m b.data (layouts b.endian b.hlswap fs) ∧
      (∀ host, putAll host b m fs = .ok (b', m')) ∧ Holds m' b' fs := by
  have hback := v.backed
  have put host := putAll_spec host v fs (by omega)
  rw [hpos, Nat.add_zero] at put
  have hlength := Lib.Blocks.write_length (m := m) (b := layouts b.endian b.hlswap fs) (o := b.data)
    (by rw [layouts_length]; omega)
  have same := Lib.Blocks.read_write_same (m := m) (b := layouts b.endian b.hlswap fs) (o := b.data)
    (by rw [layouts_length]; omega)
  rw [layouts_length] at same
  refine ⟨_, _, rfl, put, holds_of_read ((past_valid v (by omega)).rewritten hlength) hclear ?_ same⟩
  unfold past
  dsimp only
  omega

/-- A field of each kind. -/
def mixed : List Field :=
  [.value .u8 7, .value .u16 0x0102, .block [9, 9], .value .u32 0x01020304,
    .value .u64 0x0102030405060708]

/-- Little endian, with the words swapped. -/
theorem fields_round_trip_mixed :
    ∃ b' m', m' = [7, 2, 1, 9, 9, 3, 4, 1, 2, 7, 8, 5, 6, 3, 4, 1, 2] ∧
      (∀ host, putAll host (((init 0 17).setEndian .little).setHlswap true)
        (List.replicate 17 0) mixed = .ok (b', m')) ∧ Holds m' b' mixed := by
  have v : Valid (List.replicate 17 0) (((init 0 17).setEndian .little).setHlswap true) :=
    ⟨by decide, by decide, by decide, by decide⟩
  obtain ⟨b', m', hm, hput, hholds⟩ := fields_round_trip v rfl rfl mixed (by decide)
  exact ⟨b', m', hm.trans (by decide), hput, hholds⟩

end Bytes

end Coter
