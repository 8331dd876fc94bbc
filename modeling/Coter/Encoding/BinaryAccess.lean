import Coter.Core.Machine
import Coter.Encoding.Binary

/-!
# Words in a buffer

`ct_le`, `ct_be` and `ct_ne`: words loaded from and stored to any address of a buffer, and the
batches of `binary.c`.

* `getAt_eq`, `setAt_eq`: the accesses by the byte order they stand for;
* `records_portable`: a record written on one host is read on every other;
* `batch_eq`, `batches_rearrange`: an array, rearranged in place.
-/

namespace Coter.Binary

open Lib.Blocks Lib.ByteOrder

section

variable (host : Endian) (buf : List UInt8) (p : Nat)

/-- `CT_BINARY_LOAD`, and the swap where `swap` holds. -/
def loadWord (w : Nat) (swap : Bool) (bswap : BitVec w → BitVec w) : Except Fault (BitVec w) := do
  let val := BitVec.ofNat w (decode host (← load buf p (w / 8)))
  .ok (if swap then bswap val else val)

/-- The swap where `swap` holds, and `CT_BINARY_STORE`. -/
def storeWord {w : Nat} (swap : Bool) (bswap : BitVec w → BitVec w) (val : BitVec w) :
    Except Fault (List UInt8) :=
  store buf p (encode host (w / 8) (if swap then bswap val else val).toNat)

/-! ## Little-endian -/

def le_get_u16 : Except Fault (BitVec 16) := loadWord host buf p 16 (host == .big) bswap16

def le_get_u32 : Except Fault (BitVec 32) := loadWord host buf p 32 (host == .big) bswap32

def le_get_u64 : Except Fault (BitVec 64) := loadWord host buf p 64 (host == .big) bswap64

def le_get_u16_at (offset : Nat) : Except Fault (BitVec 16) := le_get_u16 host buf (p + offset)

def le_get_u32_at (offset : Nat) : Except Fault (BitVec 32) := le_get_u32 host buf (p + offset)

def le_get_u64_at (offset : Nat) : Except Fault (BitVec 64) := le_get_u64 host buf (p + offset)

def le_set_u16 (val : BitVec 16) : Except Fault (List UInt8) :=
  storeWord host buf p (host == .big) bswap16 val

def le_set_u32 (val : BitVec 32) : Except Fault (List UInt8) :=
  storeWord host buf p (host == .big) bswap32 val

def le_set_u64 (val : BitVec 64) : Except Fault (List UInt8) :=
  storeWord host buf p (host == .big) bswap64 val

def le_set_u16_at (offset : Nat) (val : BitVec 16) : Except Fault (List UInt8) :=
  le_set_u16 host buf (p + offset) val

def le_set_u32_at (offset : Nat) (val : BitVec 32) : Except Fault (List UInt8) :=
  le_set_u32 host buf (p + offset) val

def le_set_u64_at (offset : Nat) (val : BitVec 64) : Except Fault (List UInt8) :=
  le_set_u64 host buf (p + offset) val

/-! ## Big-endian -/

def be_get_u16 : Except Fault (BitVec 16) := loadWord host buf p 16 (host == .little) bswap16

def be_get_u32 : Except Fault (BitVec 32) := loadWord host buf p 32 (host == .little) bswap32

def be_get_u64 : Except Fault (BitVec 64) := loadWord host buf p 64 (host == .little) bswap64

def be_get_u16_at (offset : Nat) : Except Fault (BitVec 16) := be_get_u16 host buf (p + offset)

def be_get_u32_at (offset : Nat) : Except Fault (BitVec 32) := be_get_u32 host buf (p + offset)

def be_get_u64_at (offset : Nat) : Except Fault (BitVec 64) := be_get_u64 host buf (p + offset)

def be_set_u16 (val : BitVec 16) : Except Fault (List UInt8) :=
  storeWord host buf p (host == .little) bswap16 val

def be_set_u32 (val : BitVec 32) : Except Fault (List UInt8) :=
  storeWord host buf p (host == .little) bswap32 val

def be_set_u64 (val : BitVec 64) : Except Fault (List UInt8) :=
  storeWord host buf p (host == .little) bswap64 val

def be_set_u16_at (offset : Nat) (val : BitVec 16) : Except Fault (List UInt8) :=
  be_set_u16 host buf (p + offset) val

def be_set_u32_at (offset : Nat) (val : BitVec 32) : Except Fault (List UInt8) :=
  be_set_u32 host buf (p + offset) val

def be_set_u64_at (offset : Nat) (val : BitVec 64) : Except Fault (List UInt8) :=
  be_set_u64 host buf (p + offset) val

/-! ## Native -/

def ne_get_u16 : Except Fault (BitVec 16) := loadWord host buf p 16 false id

def ne_get_u32 : Except Fault (BitVec 32) := loadWord host buf p 32 false id

def ne_get_u64 : Except Fault (BitVec 64) := loadWord host buf p 64 false id

def ne_get_u16_at (offset : Nat) : Except Fault (BitVec 16) := ne_get_u16 host buf (p + offset)

def ne_get_u32_at (offset : Nat) : Except Fault (BitVec 32) := ne_get_u32 host buf (p + offset)

def ne_get_u64_at (offset : Nat) : Except Fault (BitVec 64) := ne_get_u64 host buf (p + offset)

def ne_set_u16 (val : BitVec 16) : Except Fault (List UInt8) := storeWord host buf p false id val

def ne_set_u32 (val : BitVec 32) : Except Fault (List UInt8) := storeWord host buf p false id val

def ne_set_u64 (val : BitVec 64) : Except Fault (List UInt8) := storeWord host buf p false id val

def ne_set_u16_at (offset : Nat) (val : BitVec 16) : Except Fault (List UInt8) :=
  ne_set_u16 host buf (p + offset) val

def ne_set_u32_at (offset : Nat) (val : BitVec 32) : Except Fault (List UInt8) :=
  ne_set_u32 host buf (p + offset) val

def ne_set_u64_at (offset : Nat) (val : BitVec 64) : Except Fault (List UInt8) :=
  ne_set_u64 host buf (p + offset) val

end

/-! ## Batches -/

section

variable {w : Nat} (f : BitVec w → BitVec w)

/-- `for (; i < count; ++i) { data[i] = f(data[i]); }`, with `left` turns to go. -/
def batchLoop : Nat → Nat → List (BitVec w) → Except Fault (List (BitVec w))
  | 0, _, data => .ok data
  | left + 1, i, data =>
    match data[i]? with
    | none => .error .bounds
    | some val => batchLoop left (i + 1) (data.set i (f val))

def batch (data : List (BitVec w)) (count : Nat) : Except Fault (List (BitVec w)) :=
  batchLoop f count 0 data

end

def bswap16_batch : List (BitVec 16) → Nat → Except Fault (List (BitVec 16)) := batch bswap16

def bswap32_batch : List (BitVec 32) → Nat → Except Fault (List (BitVec 32)) := batch bswap32

def bswap64_batch : List (BitVec 64) → Nat → Except Fault (List (BitVec 64)) := batch bswap64

def bswap16_lanes32_batch : List (BitVec 32) → Nat → Except Fault (List (BitVec 32)) :=
  batch bswap16_lanes32

def bswap16_lanes64_batch : List (BitVec 64) → Nat → Except Fault (List (BitVec 64)) :=
  batch bswap16_lanes64

def reverse16_lanes32_batch : List (BitVec 32) → Nat → Except Fault (List (BitVec 32)) :=
  batch reverse16_lanes32

def reverse16_lanes64_batch : List (BitVec 64) → Nat → Except Fault (List (BitVec 64)) :=
  batch reverse16_lanes64

/-! ## The accesses by their byte order -/

/-- The widths of a word. -/
inductive Size
  | u16
  | u32
  | u64
  deriving DecidableEq, Repr

/-- The byte orders that an access is named after. -/
inductive Order
  | le
  | be
  | ne
  deriving DecidableEq, Repr

def Size.bytes : Size → Nat
  | .u16 => 2
  | .u32 => 4
  | .u64 => 8

def Size.bits : Size → Nat
  | .u16 => 16
  | .u32 => 32
  | .u64 => 64

def Order.endian (host : Endian) : Order → Endian
  | .le => .little
  | .be => .big
  | .ne => host

section

variable (host : Endian) (buf : List UInt8) (p offset : Nat)

def getAt : (order : Order) → (size : Size) → Except Fault (BitVec size.bits)
  | .le, .u16 => le_get_u16_at host buf p offset
  | .le, .u32 => le_get_u32_at host buf p offset
  | .le, .u64 => le_get_u64_at host buf p offset
  | .be, .u16 => be_get_u16_at host buf p offset
  | .be, .u32 => be_get_u32_at host buf p offset
  | .be, .u64 => be_get_u64_at host buf p offset
  | .ne, .u16 => ne_get_u16_at host buf p offset
  | .ne, .u32 => ne_get_u32_at host buf p offset
  | .ne, .u64 => ne_get_u64_at host buf p offset

def setAt : (order : Order) → (size : Size) → BitVec size.bits → Except Fault (List UInt8)
  | .le, .u16 => le_set_u16_at host buf p offset
  | .le, .u32 => le_set_u32_at host buf p offset
  | .le, .u64 => le_set_u64_at host buf p offset
  | .be, .u16 => be_set_u16_at host buf p offset
  | .be, .u32 => be_set_u32_at host buf p offset
  | .be, .u64 => be_set_u64_at host buf p offset
  | .ne, .u16 => ne_set_u16_at host buf p offset
  | .ne, .u32 => ne_set_u32_at host buf p offset
  | .ne, .u64 => ne_set_u64_at host buf p offset

end

def Size.swap : (size : Size) → BitVec size.bits → BitVec size.bits
  | .u16 => bswap16
  | .u32 => bswap32
  | .u64 => bswap64

theorem Size.power (size : Size) : 2 ^ size.bits = 256 ^ size.bytes := by
  cases size <;> rfl

theorem Size.split_swap (size : Size) (v : BitVec size.bits) :
    split size.bytes (size.swap v).toNat = (split size.bytes v.toNat).reverse := by
  cases size with
  | u16 => exact split_bswap16 v
  | u32 => exact split_bswap32 v
  | u64 => exact split_bswap64 v

/-- Whether an access swaps. -/
def Order.swaps (host : Endian) : Order → Bool
  | .le => host == .big
  | .be => host == .little
  | .ne => false

/-- A swap turns the order of the host into the one that the access is named after. -/
theorem Order.arrange (host : Endian) (order : Order) (bs : List UInt8) :
    (if order.swaps host then (host.arrange bs).reverse else host.arrange bs) =
      (order.endian host).arrange bs := by
  cases order <;> cases host <;> simp [swaps, endian, Endian.arrange]

section

variable {host : Endian} {buf : List UInt8} {p offset : Nat} {order : Order} {size : Size}

theorem arrange_reverse (e : Endian) (bs : List UInt8) :
    e.arrange bs.reverse = (e.arrange bs).reverse := by
  cases e with
  | big => rfl
  | little => rfl

theorem setAt_eq (v : BitVec size.bits) : setAt host buf p offset order size v =
    store buf (p + offset) (encode (order.endian host) size.bytes v.toNat) := by
  have stored : setAt host buf p offset order size v =
      storeWord host buf (p + offset) (order.swaps host) size.swap v := by
    cases order <;> cases size <;> rfl
  have width : size.bits / 8 = size.bytes := by cases size <;> rfl
  rw [stored, storeWord, width, encode, encode, ← Order.arrange]
  cases order.swaps host with
  | false => rfl
  | true => rw [if_pos rfl, if_pos rfl, size.split_swap, arrange_reverse]

/-- The word that was loaded, by its bytes. -/
theorem split_loaded {bs : List UInt8} (h : bs.length = size.bytes) :
    split size.bytes (BitVec.ofNat size.bits (decode host bs)).toNat = host.arrange bs := by
  rw [BitVec.toNat_ofNat, size.power, split_mod, decode, ← h, ← arrange_length host, split_combine]

theorem getAt_eq (h : p + offset + size.bytes ≤ buf.length) :
    getAt host buf p offset order size = .ok (BitVec.ofNat size.bits
      (decode (order.endian host) (read buf (p + offset) size.bytes))) := by
  have loaded : getAt host buf p offset order size =
      loadWord host buf (p + offset) size.bits (order.swaps host) size.swap := by
    cases order <;> cases size <;> rfl
  have width : size.bits / 8 = size.bytes := by cases size <;> rfl
  have length := read_length h
  rw [loaded, loadWord, width, load_ok h, ok_bind]
  refine congrArg Except.ok (split_inj (n := size.bytes) (Nat.le_of_eq size.power) ?_)
  rw [split_loaded length, ← Order.arrange]
  cases order.swaps host with
  | false => exact split_loaded length
  | true => rw [if_pos rfl, if_pos rfl, size.split_swap, split_loaded length]

end

/-! ## Records -/

/-- A field of a record. -/
structure Item where
  order : Order
  size : Size
  offset : Nat
  val : BitVec size.bits

namespace Item

def bytes (host : Endian) (f : Item) : List UInt8 :=
  encode (f.order.endian host) f.size.bytes f.val.toNat

/-- The fields do not overlap. -/
def Apart (f g : Item) : Prop :=
  f.offset + f.size.bytes ≤ g.offset ∨ g.offset + g.size.bytes ≤ f.offset

/-- A cell of the record at `p` that belongs to the field. -/
def Covers (p : Nat) (f : Item) (i : Nat) : Prop :=
  p + f.offset ≤ i ∧ i < p + f.offset + f.size.bytes

theorem bytes_length (host : Endian) (f : Item) : (f.bytes host).length = f.size.bytes :=
  encode_length ..

end Item

/-- The fields of the record at `p` set one by one. -/
def writeAll (host : Endian) (p : Nat) : List Item → List UInt8 → Except Fault (List UInt8)
  | [], buf => .ok buf
  | f :: fs, buf => do
    let buf ← setAt host buf p f.offset f.order f.size f.val
    writeAll host p fs buf

/-- What the buffer `m` has become: the fields hold their bytes, and nothing else changed. -/
structure Written (host : Endian) (p : Nat) (fs : List Item) (m m' : List UInt8) : Prop where
  length : m'.length = m.length
  field : ∀ f ∈ fs, read m' (p + f.offset) f.size.bytes = f.bytes host
  outside : ∀ i, (∀ f ∈ fs, ¬f.Covers p i) → m'[i]? = m[i]?

section

variable {host : Endian} {p : Nat} {fs : List Item} {m : List UInt8}

/-- A block that is the same cell by cell. -/
theorem read_congr {m' : List UInt8} {o n : Nat} (h : ∀ i < n, m'[o + i]? = m[o + i]?) :
    read m' o n = read m o n := by
  apply List.ext_getElem?
  intro i
  rw [read_getElem?, read_getElem?]
  by_cases inside : i < n
  · rw [if_pos inside, if_pos inside, h i inside]
  · rw [if_neg inside, if_neg inside]

theorem writeAll_written (host : Endian) (fits : ∀ f ∈ fs, p + f.offset + f.size.bytes ≤ m.length)
    (apart : fs.Pairwise Item.Apart) :
    ∃ m', writeAll host p fs m = .ok m' ∧ Written host p fs m m' := by
  induction fs generalizing m with
  | nil => exact ⟨m, rfl, rfl, nofun, fun _ _ => rfl⟩
  | cons f fs ih =>
    obtain ⟨first, rest⟩ := List.pairwise_cons.1 apart
    have room := fits f List.mem_cons_self
    rw [← f.bytes_length host] at room
    have kept : (write m (p + f.offset) (f.bytes host)).length = m.length := write_length room
    obtain ⟨m', run, written⟩ := ih (m := write m (p + f.offset) (f.bytes host))
      (fun g hg => kept ▸ fits g (List.mem_cons_of_mem f hg)) rest
    have start := store_ok room
    refine ⟨m', ?_, written.length.trans kept, fun g hg => ?_, fun i out => ?_⟩
    · rw [writeAll, setAt_eq]
      rw [Item.bytes] at start
      rw [start]
      exact run
    · rcases List.mem_cons.1 hg with rfl | later
      · -- The later fields leave the first one alone.
        have behind (i : Nat) (hi : i < g.size.bytes) :
            m'[p + g.offset + i]? = (write m (p + g.offset) (g.bytes host))[p + g.offset + i]? := by
          refine written.outside _ fun k hk covers => ?_
          have := first k hk
          unfold Item.Apart at this
          unfold Item.Covers at covers
          omega
        rw [read_congr behind, ← g.bytes_length host, read_write_same room]
      · exact written.field g later
    · rw [written.outside i fun g hg => out g (List.mem_cons_of_mem f hg), write_getElem? room,
        if_neg]
      rw [f.bytes_length]
      exact out f List.mem_cons_self

/-- The buffer is determined by the fields, whatever their order. -/
theorem Written.unique {host' : Endian} {fs' : List Item} {m₁ m₂ : List UInt8}
    (first : Written host p fs m m₁) (second : Written host' p fs' m m₂)
    (same : ∀ f, f ∈ fs' ↔ f ∈ fs) (bytes : ∀ f ∈ fs, f.bytes host = f.bytes host') : m₁ = m₂ := by
  apply List.ext_getElem?
  intro i
  by_cases covered : ∃ f ∈ fs, f.Covers p i
  · obtain ⟨f, hf, start, stop⟩ := covered
    have block := (first.field f hf).trans
      ((bytes f hf).trans (second.field f ((same f).2 hf)).symm)
    have cell := congrArg (·[i - (p + f.offset)]?) block
    rwa [read_getElem?, read_getElem?, if_pos (by omega), if_pos (by omega),
      Nat.add_sub_cancel' start] at cell
  · have none (f : Item) (hf : f ∈ fs) : ¬f.Covers p i := fun c => covered ⟨f, hf, c⟩
    rw [first.outside i none, second.outside i fun f hf => none f ((same f).1 hf)]

/-- **Records travel.** For a record of any fields that lie apart in any buffer: writing them on
one host, in whatever order, gives one and the same buffer, which every host writes if no field is
native; each field is read back as it was written, a native one on a host of the same byte order
and the others on all; and no cell outside the fields changes. -/
theorem records_portable (p : Nat) (fs : List Item) (m : List UInt8)
    (fits : ∀ f ∈ fs, p + f.offset + f.size.bytes ≤ m.length) (apart : fs.Pairwise Item.Apart)
    (writer : Endian) :
    ∃ m', (∀ fs', fs'.Perm fs → ∀ host, host = writer ∨ (∀ f ∈ fs, f.order ≠ .ne) →
        writeAll host p fs' m = .ok m') ∧
      (∀ f ∈ fs, ∀ reader, reader = writer ∨ f.order ≠ .ne →
        getAt reader m' p f.offset f.order f.size = .ok f.val) ∧
      m'.length = m.length ∧ ∀ i, (∀ f ∈ fs, ¬f.Covers p i) → m'[i]? = m[i]? := by
  -- Only a native field depends on the host.
  have endian {f : Item} {host : Endian} (h : host = writer ∨ f.order ≠ .ne) :
      f.order.endian host = f.order.endian writer := by
    rcases h with rfl | named
    · rfl
    · cases hf : f.order with
      | le | be => rfl
      | ne => exact absurd hf named
  obtain ⟨m', -, written⟩ := writeAll_written writer fits apart
  refine ⟨m', fun fs' perm host free => ?_, fun f hf reader free => ?_, written.length,
    written.outside⟩
  · have members (f : Item) : f ∈ fs' ↔ f ∈ fs := perm.mem_iff
    have apart' : fs'.Pairwise Item.Apart := perm.symm.pairwise apart fun h => Or.symm h
    obtain ⟨m'', run, again⟩ :=
      writeAll_written host (fun f hf => fits f ((members f).1 hf)) apart'
    have bytes (f : Item) (hf : f ∈ fs) : f.bytes writer = f.bytes host := by
      rw [Item.bytes, Item.bytes, endian (free.imp_right fun all => all f hf)]
    rw [run, written.unique again members bytes]
  · have room : p + f.offset + f.size.bytes ≤ m'.length := written.length ▸ fits f hf
    rw [getAt_eq room, written.field f hf, Item.bytes, endian free,
      ofNat_decode_encode _ _ f.size.power]

end

/-- Two fields behind the first cell of a buffer, on a big-endian host. -/
theorem records_portable_two :
    let fs : List Item := [⟨.le, .u16, 4, 0x1234⟩, ⟨.be, .u32, 0, 0xDEADBEEF⟩]
    ∃ m', (∀ fs', fs'.Perm fs → ∀ host, host = Endian.big ∨ (∀ f ∈ fs, f.order ≠ .ne) →
        writeAll host 1 fs' (List.replicate 8 0) = .ok m') ∧
      (∀ f ∈ fs, ∀ reader, reader = Endian.big ∨ f.order ≠ .ne →
        getAt reader m' 1 f.offset f.order f.size = .ok f.val) ∧
      m'.length = 8 ∧ ∀ i, (∀ f ∈ fs, ¬f.Covers 1 i) → m'[i]? = (List.replicate 8 0)[i]? := by
  intro fs
  exact records_portable 1 fs (List.replicate 8 0) (by simp [fs, Size.bytes])
    (by simp [fs, Item.Apart, Size.bytes]) .big

/-! ## Arrays -/

section

variable {w : Nat} {f : BitVec w → BitVec w}

/-- From element `i` on, `left` elements are replaced. -/
theorem batchLoop_eq {left i : Nat} {data : List (BitVec w)} (h : i + left ≤ data.length) :
    batchLoop f left i data =
      .ok (data.take i ++ ((data.drop i).take left).map f ++ data.drop (i + left)) := by
  induction left generalizing i data with
  | zero => simp [batchLoop]
  | succ left ih =>
    have hi : i < data.length := by omega
    have length : (data.set i (f data[i])).length = data.length := List.length_set
    have front : (data.set i (f data[i])).take (i + 1) = data.take i ++ [f data[i]] := by
      rw [List.take_succ_eq_append_getElem (by rwa [length]), List.getElem_set_self,
        List.take_set_of_le le_rfl]
    rw [batchLoop, List.getElem?_eq_getElem hi]
    dsimp only
    rw [ih (by rw [length]; omega), front, List.drop_set_of_lt (by omega),
      List.drop_set_of_lt (by omega), List.drop_eq_getElem_cons hi, List.take_succ_cons,
      List.map_cons, List.append_assoc (data.take i), List.singleton_append, Nat.add_right_comm,
      Nat.add_assoc]

theorem batchLoop_bounds {left i : Nat} {data : List (BitVec w)} (h : data.length < i + left)
    (hi : i ≤ data.length) : batchLoop f left i data = .error .bounds := by
  induction left generalizing i data with
  | zero => omega
  | succ left ih =>
    rw [batchLoop]
    rcases Nat.lt_or_eq_of_le hi with inside | rfl
    · rw [List.getElem?_eq_getElem inside]
      exact ih (by rw [List.length_set]; omega) (by rw [List.length_set]; omega)
    · rw [List.getElem?_eq_none le_rfl]

theorem batch_eq {data : List (BitVec w)} {count : Nat} (h : count ≤ data.length) :
    batch f data count = .ok ((data.take count).map f ++ data.drop count) := by
  rw [batch, batchLoop_eq (by rwa [Nat.zero_add]), List.take_zero, List.drop_zero, List.nil_append,
    Nat.zero_add]

end

/-- The memory of an array of words of `n` bytes. -/
def array (host : Endian) (n : Nat) {w : Nat} (data : List (BitVec w)) : List UInt8 :=
  data.flatMap fun v => encode host n v.toNat

/-- What a batch does to an array in memory: the bytes of each of the first `count` words are
rearranged, a second call undoes it, and an array that is too short is overrun. -/
structure Rearranges {w : Nat} (n : Nat) (perm : List UInt8 → List UInt8)
    (call : List (BitVec w) → Nat → Except Fault (List (BitVec w))) : Prop where
  inside : ∀ data count, count ≤ data.length → ∃ data', call data count = .ok data' ∧
    (∀ host, array host n data' =
      ((data.take count).flatMap fun v => perm (encode host n v.toNat)) ++
        array host n (data.drop count)) ∧
    call data' count = .ok data
  overrun : ∀ data count, data.length < count → call data count = .error .bounds

/-- A batch of a function that rearranges the bytes of a word. -/
theorem Rearranges.of_split {w n : Nat} {perm : List UInt8 → List UInt8} {f : BitVec w → BitVec w}
    (wide : 2 ^ w ≤ 256 ^ n) (bytes : ∀ v, split n (f v).toNat = perm (split n v.toNat))
    (twice : ∀ bs, bs.length = n → perm (perm bs) = bs)
    (order : ∀ (e : Endian) bs, bs.length = n → perm (e.arrange bs) = e.arrange (perm bs)) :
    Rearranges n perm (batch f) where
  inside data count h := by
    have undone : f ∘ f = id := by
      funext v
      apply split_inj wide
      rw [Function.comp_apply, bytes, bytes, twice _ (split_length ..), id]
    have length : ((data.take count).map f).length = count := by
      rw [List.length_map, List.length_take_of_le h]
    refine ⟨_, batch_eq h, fun host => ?_, ?_⟩
    · rw [array, List.flatMap_append, List.flatMap_map]
      congr 1
      refine List.flatMap_congr fun v _ => ?_
      rw [encode, encode, bytes, order host _ (split_length ..)]
    · rw [batch_eq (by rw [List.length_append, length]; omega), List.take_left' length,
        List.drop_left' length, List.map_map, undone, List.map_id, List.take_append_drop]
  overrun data count h := batchLoop_bounds (by rwa [Nat.zero_add]) (Nat.zero_le _)

theorem rearranges_swap {w n : Nat} {f : BitVec w → BitVec w} (wide : 2 ^ w ≤ 256 ^ n)
    (bytes : ∀ v, split n (f v).toNat = (split n v.toNat).reverse) :
    Rearranges n List.reverse (batch f) :=
  .of_split wide bytes (fun bs _ => List.reverse_reverse bs)
    fun e bs _ => (arrange_reverse e bs).symm

theorem rearranges_lanes {w n : Nat} {f : BitVec w → BitVec w} (wide : 2 ^ w ≤ 256 ^ n)
    (even : n % 2 = 0) (bytes : ∀ v, split n (f v).toNat = swapPairs (split n v.toNat)) :
    Rearranges n swapPairs (batch f) :=
  .of_split wide bytes (fun bs _ => swapPairs_swapPairs bs)
    fun e _ h => swapPairs_arrange e (h ▸ even)

theorem rearranges_reverse {w n : Nat} {f : BitVec w → BitVec w} (wide : 2 ^ w ≤ 256 ^ n)
    (even : n % 2 = 0) (bytes : ∀ v, split n (f v).toNat = swapPairs (split n v.toNat).reverse) :
    Rearranges n (fun bs => swapPairs bs.reverse) (batch f) := by
  have paired {bs : List UInt8} (h : bs.length = n) : bs.length % 2 = 0 := h ▸ even
  refine .of_split wide bytes (fun bs h => ?_) fun e bs h => ?_
  · rw [swapPairs_reverse (paired h), List.reverse_reverse, swapPairs_swapPairs]
  · rw [← arrange_reverse, swapPairs_arrange e (paired (List.length_reverse.trans h))]

/-- **Arrays are rearranged in place.** Each batch rearranges the bytes of the words it is told to
and of no other, on hosts of both byte orders, and a second call undoes it. So after the batches
that swap whole words, an array copied from a host of the other byte order holds its values. -/
theorem batches_rearrange :
    (Rearranges 2 List.reverse bswap16_batch ∧ Rearranges 4 List.reverse bswap32_batch ∧
      Rearranges 8 List.reverse bswap64_batch) ∧
    (Rearranges 4 swapPairs bswap16_lanes32_batch ∧
      Rearranges 8 swapPairs bswap16_lanes64_batch) ∧
    (Rearranges 4 (fun bs => swapPairs bs.reverse) reverse16_lanes32_batch ∧
      Rearranges 8 (fun bs => swapPairs bs.reverse) reverse16_lanes64_batch) ∧
    ∀ (size : Size) (data data' : List (BitVec size.bits)),
      batch size.swap data data.length = .ok data' →
        array .little size.bytes data' = array .big size.bytes data ∧
        array .big size.bytes data' = array .little size.bytes data := by
  refine ⟨⟨?_, ?_, ?_⟩, ⟨?_, ?_⟩, ⟨?_, ?_⟩, fun size data data' run => ?_⟩
  · exact rearranges_swap (by decide) split_bswap16
  · exact rearranges_swap (by decide) split_bswap32
  · exact rearranges_swap (by decide) split_bswap64
  · exact rearranges_lanes (by decide) rfl split_bswap16_lanes32
  · exact rearranges_lanes (by decide) rfl split_bswap16_lanes64
  · exact rearranges_reverse (by decide) rfl split_reverse16_lanes32
  · exact rearranges_reverse (by decide) rfl split_reverse16_lanes64
  · have swapped := (rearranges_swap (Nat.le_of_eq size.power) size.split_swap).inside data
      data.length le_rfl
    rw [run] at swapped
    obtain ⟨_, same, bytes, -⟩ := swapped
    obtain rfl := Except.ok.inj same
    rw [bytes, bytes, List.take_length, List.drop_length]
    simp [array, encode, Endian.arrange]

end Coter.Binary
