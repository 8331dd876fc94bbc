import Coter.Crypto.Sha1

/-!
# Streams of chunks

* `operations_eq`: the unrolled operations of `sha1_transform` are the 80 steps of SHA-1;
* `transform_eq`: a block is compressed as SHA-1 does, on a host of either byte order;
* `block_loop_fits`, `block_loop_around`: the loop, whose index fits or goes around;
* `update_returns_iff`: the chunks that are fed, every byte once and in order;
* `final_spec`: the padding, byte by byte;
* `chunking`: the digest of the message, however it is cut into chunks.
-/

namespace Coter.Sha1

open Lib.Blocks Lib.ByteOrder Lib.BlockHash
open Lib.Sha1 (State sha1 schedule)

/-! ## The operations -/

section

variable {host : Endian} {t : Nat}

theorem SHA1_ROL_eq (v : BitVec 32) {n : Nat} (h : n < 32) : SHA1_ROL v n = v.rotateLeft n := by
  rw [SHA1_ROL, BitVec.rotateLeft_eq_rotateLeftAux_of_lt h, BitVec.rotateLeftAux]

theorem choice_eq (w x y : BitVec 32) : (w &&& (x ^^^ y)) ^^^ y = Lib.Sha1.Ch w x y := by
  unfold Lib.Sha1.Ch
  ext i hi
  simp only [BitVec.getElem_xor, BitVec.getElem_and, BitVec.getElem_not]
  cases w[i] <;> cases x[i] <;> cases y[i] <;> rfl

theorem majority_eq (w x y : BitVec 32) : ((w ||| x) &&& y) ||| (w &&& x) = Lib.Sha1.Maj w x y := by
  unfold Lib.Sha1.Maj
  ext i hi
  simp only [BitVec.getElem_xor, BitVec.getElem_and, BitVec.getElem_or]
  cases w[i] <;> cases x[i] <;> cases y[i] <;> rfl

/-- The operation of a step. -/
def op (host : Endian) (t : Nat) : Operation :=
  if t < 16 then SHA1_R0 host
  else if t < 20 then SHA1_R1
  else if t < 40 then SHA1_R2
  else if t < 60 then SHA1_R3
  else SHA1_R4

theorem op_blk_first (h : t < 16) : (op host t).blk = SHA1_BLK0 host := by rw [op, if_pos h]; rfl

theorem op_blk_next (h : 16 ≤ t) : (op host t).blk = SHA1_BLK := by
  rw [op, if_neg (by omega)]
  split_ifs <;> rfl

/-- What a step adds up. -/
theorem op_z (h : t < 80) (v w x y z value : BitVec 32) :
    (op host t).z v w x y z value =
      v.rotateLeft 5 + Lib.Sha1.function t w x y + z + Lib.Sha1.constant t + value := by
  have same : (op host t).f w x y = Lib.Sha1.function t w x y ∧
      (op host t).k = Lib.Sha1.constant t := by
    unfold op Lib.Sha1.function Lib.Sha1.constant
    by_cases first : t < 16
    · rw [if_pos first, show t / 20 = 0 by omega]
      exact ⟨choice_eq w x y, rfl⟩
    by_cases second : t < 20
    · rw [if_neg first, if_pos second, show t / 20 = 0 by omega]
      exact ⟨choice_eq w x y, rfl⟩
    by_cases third : t < 40
    · rw [if_neg first, if_neg second, if_pos third, show t / 20 = 1 by omega]
      exact ⟨rfl, rfl⟩
    by_cases fourth : t < 60
    · rw [if_neg first, if_neg second, if_neg third, if_pos fourth, show t / 20 = 2 by omega]
      exact ⟨majority_eq w x y, rfl⟩
    · rw [if_neg first, if_neg second, if_neg third, if_neg fourth, show t / 20 = 3 by omega]
      exact ⟨rfl, rfl⟩
  rw [Operation.z, same.1, same.2, SHA1_ROL_eq v (by decide)]
  ring

/-- The words of the block after the first steps. -/
def array (host : Endian) (l : Nat → BitVec 32) : Nat → Nat → BitVec 32
  | 0 => l
  | t + 1 => ((op host t).blk (array host l t) t).2

/-- The word that a step takes. -/
def value (host : Endian) (l : Nat → BitVec 32) (t : Nat) : BitVec 32 :=
  ((op host t).blk (array host l t) t).1

/-- Five operations, after which the variables are back in their order. -/
def five (host : Endian) (s : Work) (j : Nat) : Work :=
  bcdea (op host (5 * j + 4)) (cdeab (op host (5 * j + 3)) (deabc (op host (5 * j + 2))
    (eabcd (op host (5 * j + 1)) (abcde (op host (5 * j)) s (5 * j)) (5 * j + 1)) (5 * j + 2))
    (5 * j + 3)) (5 * j + 4)

theorem operations_fives (s : Work) :
    operations host s = (List.range 16).foldl (five host) s := by
  rw [show List.range 16 = [0, 1, 2, 3, 4, 5, 6, 7, 8, 9, 10, 11, 12, 13, 14, 15] from rfl]
  simp only [List.foldl_cons, List.foldl_nil, five, op, Nat.reduceMul, Nat.reduceAdd, Nat.reduceLT,
    ↓reduceIte]
  rfl

theorem five_eq (s : State) (l : Nat → BitVec 32) {j : Nat} (h : j < 16) :
    five host ⟨s, array host l (5 * j)⟩ j =
      ⟨[5 * j, 5 * j + 1, 5 * j + 2, 5 * j + 3, 5 * j + 4].foldl
        (Lib.Sha1.step (value host l)) s, array host l (5 * (j + 1))⟩ := by
  simp only [five, bcdea, cdeab, deabc, eabcd, abcde, op_z (show 5 * j < 80 by omega),
    op_z (show 5 * j + 1 < 80 by omega), op_z (show 5 * j + 2 < 80 by omega),
    op_z (show 5 * j + 3 < 80 by omega), op_z (show 5 * j + 4 < 80 by omega),
    SHA1_ROL_eq _ (show 30 < 32 by decide)]
  rfl

/-- The unrolled operations are the steps of SHA-1. -/
theorem operations_eq (s : State) (l : Nat → BitVec 32) :
    operations host ⟨s, l⟩ =
      ⟨(List.range 80).foldl (Lib.Sha1.step (value host l)) s, array host l 80⟩ := by
  have upTo (n : Nat) (h : n ≤ 16) : (List.range n).foldl (five host) ⟨s, l⟩ =
      ⟨(List.range (5 * n)).foldl (Lib.Sha1.step (value host l)) s, array host l (5 * n)⟩ := by
    induction n with
    | zero => rfl
    | succ n ih =>
      have more : List.range (5 * (n + 1)) =
          List.range (5 * n) ++ [5 * n, 5 * n + 1, 5 * n + 2, 5 * n + 3, 5 * n + 4] := by
        rw [Nat.mul_succ, List.range_add]
        rfl
      rw [List.range_succ, List.foldl_append, ih (by omega), more, List.foldl_append]
      exact five_eq _ l (by omega)
  rw [operations_fives, upTo 16 (by decide)]

end

/-! ## The words of a block -/

/-- A word of the host as one of a big-endian host. -/
def toBig (host : Endian) (v : BitVec 32) : BitVec 32 :=
  match host with
  | .little => (SHA1_ROL v 24 &&& 0xff00ff00) ||| (SHA1_ROL v 8 &&& 0x00ff00ff)
  | .big => v

theorem SHA1_BLK0_eq (host : Endian) (l : Nat → BitVec 32) (i : Nat) :
    SHA1_BLK0 host l i = (toBig host (l i), Function.update l i (toBig host (l i))) := by
  cases host with
  | little => rfl
  | big =>
    change (l i, l) = (l i, Function.update l i (l i))
    rw [Function.update_eq_self]

theorem toBig_decode (host : Endian) {bytes : List UInt8} (h : bytes.length = 4) :
    toBig host (BitVec.ofNat 32 (decode host bytes)) = BitVec.ofNat 32 (decode .big bytes) := by
  cases host with
  | big => rfl
  | little =>
    obtain ⟨b0, b1, b2, b3, rfl⟩ : ∃ b0 b1 b2 b3, bytes = [b0, b1, b2, b3] := by
      match bytes, h with
      | [b0, b1, b2, b3], _ => exact ⟨b0, b1, b2, b3, rfl⟩
    change toBig .little (BitVec.ofNat 32 (combine [b0, b1, b2, b3])) =
      BitVec.ofNat 32 (combine [b3, b2, b1, b0])
    rw [← bytes_or, ← bytes_or]
    unfold toBig SHA1_ROL
    apply BitVec.eq_of_getLsbD_eq
    intro i hi
    interval_cases i <;> simp

section

variable {host : Endian} {l m : Nat → BitVec 32} {t : Nat}

/-- The last sixteen words of the expansion, in a ring. -/
structure Expanded (host : Endian) (l m : Nat → BitVec 32) (t : Nat) : Prop where
  recent (u : Nat) : u < t → t ≤ u + 16 → array host l t (u % 16) = schedule m u
  block (k : Nat) : t ≤ k → k < 16 → array host l t k = l k

theorem mask_eq (n : Nat) : n &&& 15 = n % 16 := Nat.and_two_pow_sub_one_eq_mod n 4

/-- The word of a step goes in the place of the oldest one. -/
theorem blk_eq (held : Expanded host l m t) (h : ∀ k < 16, toBig host (l k) = m k) :
    (op host t).blk (array host l t) t =
      (schedule m t, Function.update (array host l t) (t % 16) (schedule m t)) := by
  by_cases first : t < 16
  · rw [op_blk_first first, SHA1_BLK0_eq, held.block t (by omega) first, h t first,
      Lib.Sha1.schedule_first m first, Nat.mod_eq_of_lt first]
  · have ago (n k : Nat) (sum : n + k = 16) (hk : 0 < k) :
        array host l t ((t + n) % 16) = schedule m (t - k) := by
      rw [show (t + n) % 16 = (t - k) % 16 by omega]
      exact held.recent (t - k) (by omega) (by omega)
    rw [op_blk_next (by omega), SHA1_BLK]
    simp only [mask_eq]
    rw [ago 13 3 rfl (by decide), ago 8 8 rfl (by decide), ago 2 14 rfl (by decide),
      show t % 16 = (t + 0) % 16 from rfl, ago 0 16 rfl (by decide), SHA1_ROL_eq _ (by decide),
      ← Lib.Sha1.schedule_next m (by omega)]

theorem expanded_next (held : Expanded host l m t) (h : ∀ k < 16, toBig host (l k) = m k) :
    Expanded host l m (t + 1) := by
  have next : array host l (t + 1) =
      Function.update (array host l t) (t % 16) (schedule m t) := by
    rw [array, blk_eq held h]
  constructor
  · intro u before near
    rw [next]
    by_cases same : u = t
    · rw [same, Function.update_self]
    · rw [Function.update_of_ne (by omega)]
      exact held.recent u (by omega) (by omega)
  · intro k behind inside
    rw [next, Function.update_of_ne (by omega)]
    exact held.block k (by omega) inside

theorem expanded (h : ∀ k < 16, toBig host (l k) = m k) (t : Nat) : Expanded host l m t := by
  induction t with
  | zero =>
    exact ⟨fun u before _ => absurd before (Nat.not_lt_zero u), fun k _ _ => rfl⟩
  | succ t ih => exact expanded_next ih h

/-- The words that the steps take are those of the expansion. -/
theorem value_eq (h : ∀ k < 16, toBig host (l k) = m k) : value host l = schedule m := by
  funext t
  rw [value, blk_eq (expanded h t) h]

end

/-- **A block is compressed as SHA-1 does**, on a host of either byte order. -/
theorem transform_eq (host : Endian) (state : State) {block : List UInt8} (h : block.length = 64) :
    transform host state block = Lib.Sha1.compress state block := by
  have words (k : Nat) (hk : k < 16) :
      toBig host (BitVec.ofNat 32 (decode host (read block (4 * k) 4))) =
        Lib.Sha1.word block k := toBig_decode host (read_length (by omega))
  have same : value host (fun i => BitVec.ofNat 32 (decode host (read block (4 * i) 4))) =
      schedule (Lib.Sha1.word block) := value_eq words
  rw [transform, operations_eq, same]
  rfl

/-! ## The loop -/

section

variable {σ : Type} {transform : σ → List UInt8 → σ} {fuel : Nat} {data : List UInt8}

theorem block_loop_more {i : BitVec 32} {state_ : σ} (h : i.toNat + 64 ≤ data.length) :
    block_loop transform data (fuel + 1) i state_ =
      block_loop transform data fuel (i + 64) (transform state_ (read data i.toNat 64)) := by
  have small := i.isLt
  rw [block_loop, if_pos (by rwa [usize_of_lt (by omega)]), load_ok h, ok_bind]

theorem next_index (i : BitVec 32) : (i + 64).toNat = (i.toNat + 64) % 2 ^ 32 := BitVec.toNat_add ..

/-- As long as the index fits, the loop absorbs the whole blocks. -/
theorem block_loop_fits {i : BitVec 32} (state_ : σ) (hi : i.toNat ≤ data.length)
    (fits : data.length - (data.length - i.toNat) % 64 < 2 ^ 32)
    (enough : (data.length - i.toNat) / 64 < fuel) :
    block_loop transform data fuel i state_ =
      .ok (BitVec.ofNat 32 (data.length - (data.length - i.toNat) % 64),
        (absorb transform 64 state_ (data.drop i.toNat)).1) := by
  induction fuel generalizing i state_ with
  | zero => exact absurd enough (Nat.not_lt_zero _)
  | succ fuel ih =>
    by_cases more : i.toNat + 64 ≤ data.length
    · have next : (i + 64).toNat = i.toNat + 64 := by
        rw [next_index, Nat.mod_eq_of_lt (by omega)]
      have whole : data.drop i.toNat = read data i.toNat 64 ++ data.drop (i.toNat + 64) := by
        rw [Lib.Blocks.read, ← List.drop_drop, List.take_append_drop]
      have same : (data.length - (i.toNat + 64)) % 64 = (data.length - i.toNat) % 64 := by omega
      rw [block_loop_more more, ih _ (by omega) (by omega) (by omega), next, same, whole,
        absorb_block _ _ (by decide) (read_length more)]
    · have small := i.isLt
      have last : data.length - (data.length - i.toNat) % 64 = i.toNat := by omega
      rw [block_loop, if_neg (by rwa [usize_of_lt (by omega)]), last, BitVec.ofNat_toNat,
        BitVec.setWidth_eq, absorb_short _ (by rw [List.length_drop]; omega)]
      rfl

/-- An index that goes around never reaches the end. -/
theorem block_loop_around {i : BitVec 32} (state_ : σ) (hi : i.toNat ≤ data.length)
    (around : 2 ^ 32 ≤ data.length - (data.length - i.toNat) % 64) :
    block_loop transform data fuel i state_ = .error .fuel := by
  induction fuel generalizing i state_ with
  | zero => rfl
  | succ fuel ih =>
    have small := i.isLt
    have next := next_index i
    have more : i.toNat + 64 ≤ data.length := by omega
    have same : (data.length - (i + 64).toNat) % 64 = (data.length - i.toNat) % 64 := by omega
    rw [block_loop_more more, ih _ (by omega) (by omega)]

end

/-! ## A chunk -/

section

variable {σ : Type} {transform : σ → List UInt8 → σ} {fuel : Nat}

/-- The number of bytes that wait for the rest of their block. -/
def Ctx.position (context : Ctx σ) : Nat := (context.count_0 >>> 3 &&& 63).toNat

/-- The bytes that wait for the rest of their block. -/
def Ctx.held (context : Ctx σ) : List UInt8 := context.buffer_.1.take context.position

/-- The number of bits so far. -/
def Ctx.bits (context : Ctx σ) : Nat := context.count_0.toNat + 2 ^ 32 * context.count_1.toNat

theorem Ctx.position_eq (context : Ctx σ) : context.position = context.bits / 8 % 64 := by
  have low := context.count_0.isLt
  rw [Ctx.position, bytes_held, Ctx.bits]
  omega

theorem Ctx.position_lt (context : Ctx σ) : context.position < 64 := by
  rw [Ctx.position_eq]
  exact Nat.mod_lt _ (by decide)

theorem Ctx.held_length (context : Ctx σ) : context.held.length = context.position := by
  have lt := context.position_lt
  have size := context.buffer_.2
  rw [Ctx.held, List.length_take_of_le (by omega)]

/-- What is stored behind the bytes that wait. -/
theorem store_held (context : Ctx σ) {b : List UInt8} (h : context.position + b.length ≤ 64) :
    ∃ buffer_, context.buffer_.store context.position b = .ok buffer_ ∧
      buffer_.1.take (context.position + b.length) = context.held ++ b := by
  have size := context.buffer_.2
  exact ⟨_, dif_pos h, take_write (by omega)⟩

/-- What is stored at the start. -/
theorem store_start (buffer : Buffer) {b : List UInt8} (h : b.length ≤ 64) :
    ∃ buffer_, buffer.store 0 b = .ok buffer_ ∧ buffer_.1.take b.length = b := by
  refine ⟨_, dif_pos (by rwa [Nat.zero_add]), ?_⟩
  change (write buffer.1 0 b).take _ = _
  rw [write_start, List.take_left]

/-- The context after a chunk: its bytes follow those that waited. -/
structure Absorbed (transform : σ → List UInt8 → σ) (context : Ctx σ) (data : List UInt8)
    (context' : Ctx σ) : Prop where
  state : context'.state_ = (absorb transform 64 context.state_ (context.held ++ data)).1
  held : context'.held = (absorb transform 64 context.state_ (context.held ++ data)).2
  bits : context'.bits = (context.bits + 8 * data.length) % 2 ^ 64

/-- The end of the last whole block of a chunk, from the start of the chunk. -/
def Ctx.blocksEnd (context : Ctx σ) (len : Nat) : Nat := len - (len + context.position) % 64

variable {context : Ctx σ} {data : List UInt8}

theorem position_next {context' : Ctx σ} {len : Nat}
    (h : context'.bits = (context.bits + 8 * len) % 2 ^ 64) :
    context'.position = (context.position + len) % 64 := by
  rw [Ctx.position_eq, Ctx.position_eq, h]
  omega

/-- The context with its number of bits moved on. -/
def Ctx.counted (context : Ctx σ) (len : Nat) (state_ : σ) (buffer_ : Buffer) : Ctx σ where
  state_ := state_
  count_0 := context.count_0 + BitVec.ofNat 32 len <<< 3
  count_1 := (if context.count_0 + BitVec.ofNat 32 len <<< 3 < context.count_0
    then context.count_1 + 1 else context.count_1) + BitVec.ofNat 32 (len >>> 29)
  buffer_ := buffer_

theorem counted_bits (context : Ctx σ) (len : Nat) (state_ : σ) (buffer_ : Buffer) :
    (context.counted len state_ buffer_).bits = (context.bits + 8 * len) % 2 ^ 64 :=
  count_bits context.count_0 context.count_1 len

theorem update_few (h : ¬usize (context.position + data.length) > 63) :
    update transform fuel context data = (do
      let rest ← load data 0 (usizeSub data.length 0)
      let buffer_ ← context.buffer_.store context.position rest
      return context.counted data.length context.state_ buffer_) := by
  have few : ¬usize ((context.count_0 >>> 3 &&& 63).toNat + data.length) > 63 := h
  rw [update, if_neg few, pure_bind]
  rfl

theorem update_many (h : usize (context.position + data.length) > 63) :
    update transform fuel context data = (do
      let bytes ← load data 0 (64 - context.position)
      let buffer_ ← context.buffer_.store context.position bytes
      let (i, state_) ← block_loop transform data fuel
        (BitVec.ofNat 32 (64 - context.position)) (transform context.state_ buffer_.1)
      let rest ← load data i.toNat (usizeSub data.length i.toNat)
      let buffer_ ← buffer_.store 0 rest
      return context.counted data.length state_ buffer_) := by
  have many : usize ((context.count_0 >>> 3 &&& 63).toNat + data.length) > 63 := h
  have lt := context.position_lt
  have first : (64 : BitVec 32) - (context.count_0 >>> 3 &&& 63) =
      BitVec.ofNat 32 (64 - context.position) := by
    apply BitVec.eq_of_toNat_eq
    change (2 ^ 32 - context.position + 64) % 2 ^ 32 = (64 - context.position) % 2 ^ 32
    omega
  have index : (BitVec.ofNat 32 (64 - context.position)).toNat = 64 - context.position :=
    Nat.mod_eq_of_lt (by omega)
  rw [update, if_pos many, first]
  simp only [index, bind_assoc, pure_bind]
  rfl

/-- A chunk that does not fill the block. -/
theorem update_short (h : context.position + data.length < 64) :
    ∃ context', (∀ fuel, update transform fuel context data = .ok context') ∧
      Absorbed transform context data context' := by
  obtain ⟨buffer_, stored, front⟩ := store_held context (b := data) (by omega)
  have short : (context.held ++ data).length < 64 := by
    rwa [List.length_append, Ctx.held_length]
  have whole : load data 0 (usizeSub data.length 0) = .ok data := by
    rw [usizeSub_of_le (by omega) (by omega), Nat.sub_zero, load_ok (by omega), Lib.Blocks.read,
      List.drop_zero, List.take_length]
  have bits := counted_bits context data.length context.state_ buffer_
  refine ⟨context.counted data.length context.state_ buffer_, fun fuel => ?_, ?_, ?_, bits⟩
  · rw [update_few (by rw [usize_of_lt (by omega)]; omega), whole, ok_bind, stored]
    rfl
  · rw [absorb_short _ short]
    rfl
  · rw [absorb_short _ short, Ctx.held, position_next bits, Nat.mod_eq_of_lt h]
    exact front

/-- A chunk whose whole blocks end where the index still fits. -/
theorem update_fits (h : context.blocksEnd data.length < 2 ^ 32) :
    ∃ context', (∀ fuel, data.length / 64 < fuel →
      update transform fuel context data = .ok context') ∧
      Absorbed transform context data context' := by
  unfold Ctx.blocksEnd at h
  have lt := context.position_lt
  by_cases few : context.position + data.length < 64
  · obtain ⟨context', run, absorbed⟩ := @update_short σ transform context data few
    exact ⟨context', fun fuel _ => run fuel, absorbed⟩
  · -- The chunk completes the block, and the loop takes the rest of it.
    have head : (data.take (64 - context.position)).length = 64 - context.position :=
      List.length_take_of_le (by omega)
    obtain ⟨buffer_, stored, front⟩ :=
      store_held context (b := data.take (64 - context.position)) (by omega)
    have block : buffer_.1 = context.held ++ data.take (64 - context.position) := by
      rw [← front, head, List.take_of_length_le]
      have size := buffer_.2
      omega
    have index : (BitVec.ofNat 32 (64 - context.position)).toNat = 64 - context.position :=
      Nat.mod_eq_of_lt (by omega)
    have same : (data.length - (64 - context.position)) % 64 =
        (data.length + context.position) % 64 := by omega
    have last : (BitVec.ofNat 32 (data.length - (data.length + context.position) % 64)).toNat =
        data.length - (data.length + context.position) % 64 := Nat.mod_eq_of_lt h
    have tail : load data (data.length - (data.length + context.position) % 64)
        (usizeSub data.length (data.length - (data.length + context.position) % 64)) =
        .ok (data.drop (data.length - (data.length + context.position) % 64)) := by
      rw [usizeSub_of_le (by omega) (by omega), load_ok (by omega), Lib.Blocks.read,
        List.take_of_length_le (by rw [List.length_drop])]
    have tail_length : (data.drop (data.length - (data.length + context.position) % 64)).length =
        (data.length + context.position) % 64 := by
      rw [List.length_drop]
      omega
    obtain ⟨buffer', stored', front'⟩ := store_start buffer_
      (b := data.drop (data.length - (data.length + context.position) % 64)) (by omega)
    have bits := counted_bits context data.length (absorb transform 64
      (transform context.state_ buffer_.1) (data.drop (64 - context.position))).1 buffer'
    have whole : context.held ++ data = buffer_.1 ++ data.drop (64 - context.position) := by
      rw [block, List.append_assoc, List.take_append_drop]
    refine ⟨_, fun fuel enough => ?_, ?_, ?_, bits⟩
    · have loop := @block_loop_fits σ transform fuel data _ (transform context.state_ buffer_.1)
        (by rw [index]; omega) (by rwa [index, same]) (by rw [index]; omega)
      rw [index, same] at loop
      rw [update_many (by rw [usize_of_lt (by omega)]; omega), load_ok (by omega), ok_bind]
      change (context.buffer_.store _ (data.take (64 - context.position)) >>= _) = _
      rw [stored, ok_bind, loop, ok_bind]
      simp only [last]
      rw [tail, ok_bind, stored']
      rfl
    · rw [whole, absorb_block _ _ (by decide) buffer_.2]
      rfl
    · have rest : context.position + data.length - (context.position + data.length) % 64 -
          context.position = data.length - (data.length + context.position) % 64 := by omega
      have none : context.held.drop
          (context.position + data.length - (context.position + data.length) % 64) = [] :=
        List.drop_eq_nil_of_le (by rw [Ctx.held_length]; omega)
      rw [absorb_rest _ _ (by decide), Ctx.held, position_next bits, List.length_append,
        Ctx.held_length, List.drop_append, Ctx.held_length, none, rest, List.nil_append,
        Nat.add_comm context.position]
      rwa [tail_length] at front'

/-- A chunk whose whole blocks end beyond that leaves the call running, or takes it outside
the buffer. -/
theorem update_around (h : data.length < 2 ^ 64)
    (around : 2 ^ 32 ≤ context.blocksEnd data.length) (context' : Ctx σ) :
    update transform fuel context data ≠ .ok context' := by
  unfold Ctx.blocksEnd at around
  have lt := context.position_lt
  by_cases wide : context.position + data.length < 2 ^ 64
  · obtain ⟨buffer_, stored, -⟩ :=
      store_held context (b := data.take (64 - context.position))
        (by rw [List.length_take_of_le (by omega)]; omega)
    have index : (BitVec.ofNat 32 (64 - context.position)).toNat = 64 - context.position :=
      Nat.mod_eq_of_lt (by omega)
    have same : (data.length - (64 - context.position)) % 64 =
        (data.length + context.position) % 64 := by omega
    have loop := @block_loop_around σ transform fuel data _ (transform context.state_ buffer_.1)
      (by rw [index]; omega) (by rwa [index, same])
    rw [update_many (by rw [usize_of_lt wide]; omega), load_ok (by omega), ok_bind]
    change (context.buffer_.store _ (data.take (64 - context.position)) >>= _) ≠ _
    rw [stored, ok_bind, loop, error_bind]
    exact fun run => by cases run
  · -- The sum of the position and the length goes around.
    have few : ¬usize (context.position + data.length) > 63 := by
      unfold usize
      omega
    have whole : load data 0 (usizeSub data.length 0) = .ok data := by
      rw [usizeSub_of_le (by omega) h, Nat.sub_zero, load_ok (by omega), Lib.Blocks.read,
        List.drop_zero, List.take_length]
    have outside : context.buffer_.store context.position data = .error .bounds :=
      dif_neg (by omega)
    rw [update_few few, whole, ok_bind, outside, error_bind]
    exact fun run => by cases run

/-! ## Every byte once -/

/-- Every byte once and in order: those that waited and those of the chunk are compressed
block by block, and the rest of them waits. -/
structure Fed (transform : σ → List UInt8 → σ) (context : Ctx σ) (data : List UInt8)
    (context' : Ctx σ) : Prop where
  order : ∃ blocks : List (List UInt8), (∀ b ∈ blocks, b.length = 64) ∧
    context'.state_ = blocks.foldl transform context.state_ ∧
    context.held ++ data = blocks.flatten ++ context'.held
  bits : context'.bits = (context.bits + 8 * data.length) % 2 ^ 64

theorem Absorbed.fed {context' : Ctx σ} (h : Absorbed transform context data context') :
    Fed transform context data context' := by
  obtain ⟨blocks, sizes, state, whole⟩ :=
    absorb_blocks (f := transform) (n := 64) context.state_ (context.held ++ data)
  exact ⟨⟨blocks, sizes, h.state.trans state, by rwa [h.held]⟩, h.bits⟩

/-- **Lengths of 32 bits.** The call returns, with every byte fed once and in order, exactly
when the whole blocks of the chunk end below `2 ^ 32`. -/
theorem update_returns_iff (transform : σ → List UInt8 → σ) (context : Ctx σ) (data : List UInt8)
    (h : data.length < 2 ^ 64) :
    (∃ context' turns, (∀ fuel, turns ≤ fuel → update transform fuel context data = .ok context') ∧
      Fed transform context data context') ↔ context.blocksEnd data.length < 2 ^ 32 := by
  constructor
  · rintro ⟨context', turns, run, -⟩
    by_contra beyond
    exact update_around h (Nat.le_of_not_lt beyond) context' (run turns le_rfl)
  · intro fits
    obtain ⟨context', run, absorbed⟩ := @update_fits σ transform _ _ fits
    exact ⟨context', data.length / 64 + 1, fun fuel enough => run fuel enough, absorbed.fed⟩

theorem update_returns_abc : ∃ context' turns, (∀ fuel, turns ≤ fuel →
    update (Sha1.transform .little) fuel (init zeros) [0x61, 0x62, 0x63] = .ok context') ∧
    Fed (Sha1.transform .little) (init zeros) [0x61, 0x62, 0x63] context' :=
  (update_returns_iff (Sha1.transform .little) (init zeros) [0x61, 0x62, 0x63] (by decide)).2
    (by decide)

/-- A first chunk of `2 ^ 32` bytes leaves the call running. -/
theorem update_forever : ¬∃ context' turns, (∀ fuel, turns ≤ fuel →
    update (Sha1.transform .little) fuel (init zeros) (List.replicate (2 ^ 32) 0) = .ok context') ∧
    Fed (Sha1.transform .little) (init zeros) (List.replicate (2 ^ 32) 0) context' := by
  rintro ⟨context', turns, run, -⟩
  have length : (List.replicate (2 ^ 32) (0 : UInt8)).length = 2 ^ 32 := List.length_replicate
  refine update_around ?_ ?_ context' (run turns le_rfl)
  · rw [length]
    decide
  · rw [length]
    decide

end

/-! ## The context -/

section

variable {context : Ctx State} {m : List UInt8}

/-- The context after the chunks of the message `m`. -/
structure Streaming (context : Ctx State) (m : List UInt8) : Prop where
  state : context.state_ = (sha1.after m).1
  held : context.held = (sha1.after m).2
  bits : context.bits = 8 * m.length % 2 ^ 64

theorem init_spec (buffer_ : Buffer) : Streaming (init buffer_) [] where
  state := by rw [Lib.BlockHash.Hash.after, absorb_short _ (by decide)]; rfl
  held := by
    have start : (init buffer_).position = 0 := by
      change ((0 : BitVec 32) >>> 3 &&& 63).toNat = 0
      decide
    rw [Lib.BlockHash.Hash.after, absorb_short _ (by decide), Ctx.held, start, List.take_zero]
  bits := rfl

theorem Streaming.position (h : Streaming context m) : context.position = m.length % 64 := by
  rw [Ctx.position_eq, h.bits]
  omega

/-- **One chunk more.** -/
theorem update_spec (host : Endian) (h : Streaming context m) {chunk : List UInt8}
    (small : chunk.length < 2 ^ 32) :
    ∃ context', (∀ fuel, 2 ^ 26 ≤ fuel →
      update (transform host) fuel context chunk = .ok context') ∧
      Streaming context' (m ++ chunk) := by
  have fits : context.blocksEnd chunk.length < 2 ^ 32 := Nat.lt_of_le_of_lt (Nat.sub_le _ _) small
  obtain ⟨context', run, absorbed⟩ := @update_fits State (transform host) _ _ fits
  have same : absorb (transform host) 64 context.state_ (context.held ++ chunk) =
      sha1.after (m ++ chunk) := by
    rw [sha1.after_append, ← h.state, ← h.held]
    exact absorb_congr (fun s b hb => transform_eq host s hb) _ _
  refine ⟨context', fun fuel enough => run fuel (by omega), ?_, ?_, ?_⟩
  · rw [absorbed.state, same]
  · rw [absorbed.held, same]
  · rw [absorbed.bits, h.bits, Nat.mod_add_mod, ← Nat.mul_add, ← List.length_append]

/-! ## The end -/

theorem byte_eq (word : BitVec 32) (i : Nat) :
    byte word i = UInt8.ofBitVec (word.extractLsb' ((3 - (i &&& 3)) * 8) 8) := by
  have mask : (255 : BitVec 32).toNat = 2 ^ 8 - 1 := rfl
  have small (n : Nat) : n % 2 ^ 8 < 2 ^ 32 := Nat.lt_trans (Nat.mod_lt _ (by decide)) (by decide)
  rw [byte]
  congr 1
  apply BitVec.eq_of_toNat_eq
  rw [BitVec.toNat_setWidth, BitVec.toNat_and, mask, Nat.and_two_pow_sub_one_eq_mod, Nat.mod_mod,
    BitVec.toNat_ushiftRight, BitVec.extractLsb'_toNat]

/-- The four bytes of a word, most significant first. -/
theorem bytes_eq (word : BitVec 32) :
    [byte word 0, byte word 1, byte word 2, byte word 3] = encode .big 4 word.toNat := by
  change _ = (split 4 word.toNat).reverse
  rw [split_toNat]
  simp only [byte_eq]
  rfl

/-- The number of bits, as it is written behind the padding. -/
theorem finalcount_eq (h : Streaming context m) :
    ((List.range 8).map fun i => byte (if i ≥ 4 then context.count_0 else context.count_1) i) =
      encode .big 8 (8 * m.length) := by
  have low : context.count_0.toNat < 256 ^ 4 := context.count_0.isLt
  have bits := h.bits
  have whole : encode .big 8 (8 * m.length) =
      encode .big 4 context.count_1.toNat ++ encode .big 4 context.count_0.toNat := by
    change (split 8 (8 * m.length)).reverse = (split 4 _).reverse ++ (split 4 _).reverse
    rw [← split_mod 8, show 256 ^ 8 = 2 ^ 64 from rfl, ← bits, ← List.reverse_append]
    exact congrArg List.reverse (split_add low 4 _)
  rw [whole, ← bytes_eq, ← bytes_eq]
  rfl

/-- The digest of the state. -/
theorem digest_eq (s : State) :
    ((List.range 20).map fun i => byte (register s (i >>> 2)) i) = sha1.output s := by
  change _ = Lib.Sha1.output s
  simp only [Lib.Sha1.output, ← bytes_eq]
  rfl

/-- The test of the padding loop. -/
theorem padded_iff (context : Ctx State) :
    context.count_0 &&& 504 = 448 ↔ context.position = 56 := by
  have shifted : context.count_0 &&& (504 : BitVec 32) =
      (context.count_0 >>> 3 &&& 63) <<< 3 := by
    apply BitVec.eq_of_getLsbD_eq
    intro i hi
    interval_cases i <;> simp
  have lt := context.position_lt
  have times : ((context.count_0 >>> 3 &&& 63) <<< 3).toNat = context.position * 8 := by
    rw [BitVec.toNat_shiftLeft, Nat.shiftLeft_eq, ← Ctx.position]
    omega
  rw [shifted, ← BitVec.toNat_inj, times, show (448 : BitVec 32).toNat = 448 from rfl]
  omega

/-- The padding loop adds zeros up to the place of the number of bits. -/
theorem pad_loop_spec (host : Endian) {fuel turns : Nat} (h : Streaming context m) (enough : 2 ^ 26 ≤ fuel)
    (left : (120 - m.length % 64) % 64 < turns) :
    ∃ context', pad_loop (transform host) fuel turns context = .ok context' ∧
      Streaming context' (m ++ List.replicate ((120 - m.length % 64) % 64) 0) := by
  induction turns generalizing context m with
  | zero => exact absurd left (Nat.not_lt_zero _)
  | succ turns ih =>
    have position := h.position
    by_cases last : context.position = 56
    · have none : (120 - m.length % 64) % 64 = 0 := by omega
      refine ⟨context, ?_, by rwa [none, List.replicate_zero, List.append_nil]⟩
      rw [pad_loop, if_neg (by rwa [not_not, padded_iff])]
      rfl
    · obtain ⟨next, run, streaming⟩ := @update_spec _ _ host h [0] (by decide)
      have one : (120 - m.length % 64) % 64 =
          (120 - (m ++ [0]).length % 64) % 64 + 1 := by
        rw [List.length_append, List.length_singleton]
        omega
      obtain ⟨context', rest, streaming'⟩ := ih streaming (by omega)
      refine ⟨context', ?_, ?_⟩
      · rw [pad_loop, if_pos (by rwa [Ne, padded_iff]), run fuel enough, ok_bind, rest]
      · rw [one, Nat.add_comm, List.replicate_add, ← List.append_assoc]
        exact streaming'

/-- **The end of a message.** -/
theorem final_spec (host : Endian) {fuel : Nat} (h : Streaming context m) (enough : 2 ^ 26 ≤ fuel) :
    final host fuel context = .ok (sha1.digest m, ⟨⟨0, 0, 0, 0, 0⟩, 0, 0, zeros⟩) := by
  obtain ⟨marked, first, streaming⟩ := @update_spec _ _ host h [0x80] (by decide)
  obtain ⟨padded, second, streaming'⟩ :=
    pad_loop_spec host streaming enough (show _ < fuel by omega)
  have eight : (encode .big 8 (8 * m.length)).length < 2 ^ 32 := by
    rw [encode_length]
    decide
  obtain ⟨context', third, streaming''⟩ := update_spec host streaming' eight
  have whole : m ++ [0x80] ++ List.replicate ((120 - (m ++ [0x80]).length % 64) % 64) 0 ++
      encode .big 8 (8 * m.length) = m ++ padding .big m.length := by
    have same : (120 - (m ++ [0x80]).length % 64) % 64 = (119 - m.length % 64) % 64 := by
      rw [List.length_append, List.length_singleton]
      omega
    rw [padding, same]
    simp only [List.append_assoc, List.cons_append, List.nil_append]
  rw [final, first fuel enough, ok_bind, second, ok_bind]
  dsimp only
  rw [finalcount_eq h, third fuel enough, ok_bind, digest_eq, streaming''.state, whole]
  rfl

/-! ## Runs -/

/-- The digest after one `ct_sha1_update` for each chunk. -/
def run (host : Endian) (fuel : Nat) (buffer_ : Buffer) (chunks : List (List UInt8)) :
    Except Fault (List UInt8) := do
  let context ← chunks.foldlM (update (transform host) fuel) (init buffer_)
  let (digest, _) ← final host fuel context
  return digest

/-- Chunk after chunk. -/
theorem updates_spec (host : Endian) {fuel : Nat} (h : Streaming context m) (enough : 2 ^ 26 ≤ fuel)
    {chunks : List (List UInt8)} (small : ∀ chunk ∈ chunks, chunk.length < 2 ^ 32) :
    ∃ context', chunks.foldlM (update (transform host) fuel) context = .ok context' ∧
      Streaming context' (m ++ chunks.flatten) := by
  induction chunks generalizing context m with
  | nil => exact ⟨context, rfl, by rwa [List.flatten_nil, List.append_nil]⟩
  | cons chunk chunks ih =>
    obtain ⟨next, step, streaming⟩ :=
      update_spec host h (small chunk List.mem_cons_self)
    obtain ⟨context', rest, streaming'⟩ :=
      ih streaming fun c hc => small c (List.mem_cons_of_mem chunk hc)
    refine ⟨context', ?_, by rwa [List.flatten_cons, ← List.append_assoc]⟩
    rw [List.foldlM_cons, step fuel enough, ok_bind, rest]

/-- **Streaming.** However a message is cut into chunks below `2 ^ 32` bytes, the digest is that
of the message, on a host of either byte order, and the one that `ct_sha1_sum` gives for a message
below `2 ^ 32` bytes. -/
theorem chunking (host : Endian) (buffer_ : Buffer) (chunks : List (List UInt8))
    (small : ∀ chunk ∈ chunks, chunk.length < 2 ^ 32) :
    ∃ turns, ∀ fuel, turns ≤ fuel →
      run host fuel buffer_ chunks = .ok (sha1.digest chunks.flatten) ∧
        (chunks.flatten.length < 2 ^ 32 →
          sum host fuel buffer_ chunks.flatten = .ok (sha1.digest chunks.flatten)) := by
  refine ⟨2 ^ 26, fun fuel enough => ⟨?_, fun short => ?_⟩⟩
  · obtain ⟨context, updates, streaming⟩ := updates_spec host (init_spec buffer_) enough small
    rw [List.nil_append] at streaming
    rw [run, updates, ok_bind, final_spec host streaming enough]
    rfl
  · obtain ⟨context, updated, streaming⟩ := update_spec host (init_spec buffer_) short
    rw [List.nil_append] at streaming
    rw [sum, updated fuel enough, ok_bind, final_spec host streaming enough]
    rfl

theorem chunking_abc : ∃ turns, ∀ fuel, turns ≤ fuel →
    run .little fuel zeros [[0x61], [], [0x62, 0x63]] =
        .ok (sha1.digest [[0x61], [], [0x62, 0x63]].flatten) ∧
      ([[0x61], [], [0x62, 0x63]].flatten.length < 2 ^ 32 →
        sum .little fuel zeros [[0x61], [], [0x62, 0x63]].flatten =
          .ok (sha1.digest [[0x61], [], [0x62, 0x63]].flatten)) :=
  chunking .little zeros [[0x61], [], [0x62, 0x63]] (by decide)

end

end Coter.Sha1
