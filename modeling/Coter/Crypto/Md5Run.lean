import Coter.Crypto.Md5

/-!
# Streams of chunks

* `steps_eq`: the unrolled steps of `md5_transform` are the 64 operations of MD5;
* `transform_spec`: a block is compressed as MD5 does;
* `update_spec`: the context after a chunk is that of the message so far;
* `final_spec`: the padding, in one block or two;
* `streaming`: the digest of the message, however it is cut into chunks.
-/

namespace Coter.Md5

open Lib.Blocks Lib.ByteOrder Lib.BlockHash
open Lib.Md5 (State md5)

/-! ## The steps -/

theorem F1_eq : F1 = Lib.Md5.F := by
  funext x y z
  unfold F1 Lib.Md5.F
  ext i hi
  simp only [BitVec.getElem_xor, BitVec.getElem_and, BitVec.getElem_or, BitVec.getElem_not]
  cases x[i] <;> cases y[i] <;> cases z[i] <;> rfl

theorem F2_eq : F2 = Lib.Md5.G := by
  funext x y z
  unfold F2 F1 Lib.Md5.G
  ext i hi
  simp only [BitVec.getElem_xor, BitVec.getElem_and, BitVec.getElem_or, BitVec.getElem_not]
  cases x[i] <;> cases y[i] <;> cases z[i] <;> rfl

theorem F3_eq : F3 = Lib.Md5.H := rfl

theorem F4_eq : F4 = Lib.Md5.I := rfl

section

variable {x : Nat → BitVec 32} {i : Nat}

theorem MD5STEP_eq (f : BitVec 32 → BitVec 32 → BitVec 32 → BitVec 32)
    (w y z u k t : BitVec 32) {n : Nat} (h : n < 32) :
    MD5STEP f w y z u (k + t) n = y + (w + f y z u + k + t).rotateLeft n := by
  rw [MD5STEP, BitVec.rotateLeft_eq_rotateLeftAux_of_lt h, BitVec.rotateLeftAux, BitVec.add_comm y,
    BitVec.add_assoc (w + _), BitVec.add_assoc w]

theorem shift_lt (i : Nat) : Lib.Md5.shift i < 32 := by
  have small : i % 4 < 4 := Nat.mod_lt _ (by decide)
  unfold Lib.Md5.shift
  generalize i % 4 = j at small
  split <;> revert j <;> decide

/-- Four steps, after which the registers are back in their order. -/
theorem four_steps (s : State) (first : i % 4 = 0) :
    [i, i + 1, i + 2, i + 3].foldl (Lib.Md5.step x) s =
      bcda (Lib.Md5.function i) (cdab (Lib.Md5.function i) (dabc (Lib.Md5.function i)
        (abcd (Lib.Md5.function i) s
        (x (Lib.Md5.index i) + Lib.Md5.sines.getD i 0) (Lib.Md5.shift i))
        (x (Lib.Md5.index (i + 1)) + Lib.Md5.sines.getD (i + 1) 0) (Lib.Md5.shift (i + 1)))
        (x (Lib.Md5.index (i + 2)) + Lib.Md5.sines.getD (i + 2) 0) (Lib.Md5.shift (i + 2)))
        (x (Lib.Md5.index (i + 3)) + Lib.Md5.sines.getD (i + 3) 0) (Lib.Md5.shift (i + 3)) := by
  have same (j : Nat) (hj : j < 4) : Lib.Md5.function (i + j) = Lib.Md5.function i := by
    rw [Lib.Md5.function, Lib.Md5.function, show (i + j) / 16 = i / 16 by omega]
  simp only [List.foldl_cons, List.foldl_nil, Lib.Md5.step, abcd, dabc, cdab, bcda,
    MD5STEP_eq _ _ _ _ _ _ _ (shift_lt _), same 1 (by decide), same 2 (by decide),
    same 3 (by decide)]

/-- The unrolled steps are the operations of MD5. -/
theorem steps_eq (s : State) (x : Nat → BitVec 32) :
    steps s x = (List.range 64).foldl (Lib.Md5.step x) s := by
  have fours : List.range 64 = (List.range 16).flatMap
      fun j => [4 * j, 4 * j + 1, 4 * j + 2, 4 * j + 3] := by decide
  rw [fours, List.foldl_flatMap]
  have four (s : State) (j : Nat) := four_steps (x := x) (i := 4 * j) s (Nat.mul_mod_right 4 j)
  simp only [four]
  unfold steps
  rw [F1_eq, F2_eq, F3_eq, F4_eq]
  rfl

end

/-! ## Words -/

theorem store_le32_eq (v : BitVec 32) : store_le32 v = encode .little 4 v.toNat := by
  change _ = split 4 v.toNat
  rw [split_toNat]
  rfl

theorem load_le32_ok {p : List UInt8} {o : Nat} (h : o + 4 ≤ p.length) :
    load_le32 p o = .ok (BitVec.ofNat 32 (decode .little (read p o 4))) := by
  have length : (read p o 4).length = 4 := read_length h
  rw [load_le32, load_ok h, ok_bind]
  obtain ⟨b0, b1, b2, b3, four⟩ : ∃ b0 b1 b2 b3, read p o 4 = [b0, b1, b2, b3] := by
    match read p o 4, length with
    | [b0, b1, b2, b3], _ => exact ⟨b0, b1, b2, b3, rfl⟩
  rw [four]
  exact congrArg Except.ok (bytes_or b0 b1 b2 b3)

theorem mapM_ok {α β ε : Type} {l : List α} {f : α → Except ε β} {g : α → β}
    (h : ∀ a ∈ l, f a = .ok (g a)) : l.mapM f = .ok (l.map g) := by
  induction l with
  | nil => rfl
  | cons a l ih =>
    rw [List.mapM_cons, h a (by simp), ok_bind, ih fun b hb => h b (by simp [hb])]
    rfl

/-! ## Blocks -/

theorem index_lt (i : Nat) : Lib.Md5.index i < 16 := by
  unfold Lib.Md5.index
  split <;> omega

theorem foldl_step_congr {x y : Nat → BitVec 32} (h : ∀ k < 16, x k = y k) (s : State)
    (l : List Nat) : l.foldl (Lib.Md5.step x) s = l.foldl (Lib.Md5.step y) s := by
  have same : Lib.Md5.step x = Lib.Md5.step y := by
    funext s i
    rw [Lib.Md5.step, Lib.Md5.step, h _ (index_lt i)]
  rw [same]

/-- A block is compressed as MD5 does. -/
theorem transform_spec (buf : State) {block : List UInt8} (h : block.length = 64) :
    transform buf block = .ok (Lib.Md5.compress buf block) := by
  have words : (List.range 16).mapM (fun i => load_le32 block (i * 4)) =
      .ok ((List.range 16).map (Lib.Md5.word block)) := mapM_ok fun i hi => by
    have := List.mem_range.1 hi
    rw [load_le32_ok (by omega), Nat.mul_comm]
    rfl
  have same (k : Nat) (hk : k < 16) :
      ((List.range 16).map (Lib.Md5.word block)).getD k 0 = Lib.Md5.word block k := by
    simp [List.getD_eq_getElem?_getD, hk]
  rw [transform, words, ok_bind, steps_eq, foldl_step_congr same]
  rfl

/-- What is stored behind the first bytes of the buffer. -/
theorem store_at {a m b : List UInt8} {o : Nat} (ho : a.length = o) (h : b.length ≤ m.length) :
    store (a ++ m) o b = .ok (a ++ b ++ m.drop b.length) := by
  subst ho
  rw [store_ok (by rw [List.length_append]; omega), write_behind]

/-- The whole blocks of a chunk are absorbed, and the rest is kept. -/
theorem block_loop_spec (buf_ : State) {in_ : List UInt8} (h : in_.length = 64)
    (data : List UInt8) :
    ∃ tail, block_loop buf_ in_ data = .ok ((absorb Lib.Md5.compress 64 buf_ data).1,
      (absorb Lib.Md5.compress 64 buf_ data).2 ++ tail) ∧
      ((absorb Lib.Md5.compress 64 buf_ data).2 ++ tail).length = 64 := by
  have fill (b : List UInt8) (hb : b.length ≤ 64) :
      store in_ 0 b = .ok (b ++ in_.drop b.length) := store_at (a := []) rfl (by omega)
  fun_induction absorb Lib.Md5.compress 64 buf_ data generalizing in_ with
  | case1 buf_ data more ih =>
    have block : (data.take 64).length = 64 := List.length_take_of_le more.2
    have emptied : in_.drop (data.take 64).length = [] := List.drop_eq_nil_of_le (by omega)
    obtain ⟨tail, run, length⟩ := ih block fun b hb => store_at (a := []) rfl (by omega)
    refine ⟨tail, ?_, length⟩
    rw [block_loop, if_pos more.2, load_ok more.2, ok_bind]
    change (store in_ 0 (data.take 64) >>= _) = _
    rw [fill _ (by omega), ok_bind, emptied, List.append_nil, transform_spec _ block, ok_bind, run]
  | case2 buf_ data less =>
    have short : ¬data.length ≥ 64 := by omega
    refine ⟨in_.drop data.length, ?_, ?_⟩
    · rw [block_loop, if_neg short, fill _ (by omega)]
      rfl
    · change (data ++ in_.drop data.length).length = 64
      rw [List.length_append, List.length_drop]
      omega

/-! ## The context -/

/-- The context after the chunks of the message `m`. -/
structure Streaming (ctx : Ctx) (m : List UInt8) : Prop where
  state : ctx.buf_ = (md5.after m).1
  buffer : ∃ tail, ctx.in_ = (md5.after m).2 ++ tail ∧ ctx.in_.length = 64
  bits : ctx.bits_0.toNat + 2 ^ 32 * ctx.bits_1.toNat = 8 * m.length % 2 ^ 64

theorem init_spec : Streaming init [] where
  state := by rw [Lib.BlockHash.Hash.after, absorb_short _ (by decide)]; rfl
  buffer := by
    rw [Lib.BlockHash.Hash.after, absorb_short _ (by decide)]
    exact ⟨_, rfl, rfl⟩
  bits := rfl

/-- The position in the buffer. -/
theorem position {ctx : Ctx} {m : List UInt8} (h : Streaming ctx m) :
    (ctx.bits_0 >>> 3 &&& 0x3f).toNat = m.length % 64 := by
  have bits := h.bits
  have low := ctx.bits_0.isLt
  rw [bytes_held]
  omega

/-- **One chunk more.** -/
theorem update_spec {ctx : Ctx} {m : List UInt8} (h : Streaming ctx m) (data : List UInt8) :
    ∃ ctx', update ctx data = .ok ctx' ∧ Streaming ctx' (m ++ data) := by
  obtain ⟨tail, hin, size⟩ := h.buffer
  have rest := md5.after_rest_length m
  have sizes : (md5.after m).2.length + tail.length = 64 := by
    rw [← List.length_append, ← hin, size]
  have bits := count_bits ctx.bits_0 ctx.bits_1 data.length
  rw [h.bits, Nat.mod_add_mod, ← Nat.mul_add, ← List.length_append] at bits
  have after := md5.after_append m data
  unfold update
  simp only [position h]
  by_cases empty : m.length % 64 = 0
  · -- Nothing is left over from the chunks before.
    have none : (md5.after m).2 = [] := List.eq_nil_of_length_eq_zero (by omega)
    rw [none, List.nil_append] at after
    obtain ⟨tail', run, size'⟩ := block_loop_spec ctx.buf_ size data
    rw [if_neg (by omega), run]
    refine ⟨_, rfl, ?_, ?_, bits⟩
    · rw [after, h.state]
      rfl
    · rw [after, ← h.state]
      exact ⟨tail', rfl, size'⟩
  · rw [if_pos empty]
    by_cases few : data.length < 64 - m.length % 64
    · -- The chunk does not fill the block.
      rw [if_pos few, hin, store_at rest (by omega)]
      refine ⟨_, rfl, ?_, ?_, bits⟩
      · rw [after, absorb_short _ (by rw [List.length_append]; omega)]
        exact h.state
      · rw [after, absorb_short _ (by rw [List.length_append]; omega)]
        refine ⟨tail.drop data.length, rfl, ?_⟩
        rw [List.length_append, List.length_append, List.length_drop]
        omega
    · -- The chunk completes the block, and the loop takes the rest of it.
      have head : (data.take (64 - m.length % 64)).length = 64 - m.length % 64 :=
        List.length_take_of_le (by omega)
      have full : tail.drop (data.take (64 - m.length % 64)).length = [] :=
        List.drop_eq_nil_of_le (by omega)
      have block : ((md5.after m).2 ++ data.take (64 - m.length % 64)).length = 64 := by
        rw [List.length_append, head]
        omega
      obtain ⟨tail', run, size'⟩ := block_loop_spec
        (Lib.Md5.compress ctx.buf_ ((md5.after m).2 ++ data.take (64 - m.length % 64))) block
        (data.drop (64 - m.length % 64))
      have whole : (md5.after m).2 ++ data = ((md5.after m).2 ++ data.take (64 - m.length % 64)) ++
          data.drop (64 - m.length % 64) := by
        rw [List.append_assoc, List.take_append_drop]
      rw [whole, absorb_block _ _ (by decide) block, ← h.state] at after
      rw [if_neg few, load_ok (by omega), ok_bind]
      change ∃ ctx', (store ctx.in_ (m.length % 64) (data.take (64 - m.length % 64)) >>= _) = _ ∧ _
      rw [hin, store_at rest (by omega), ok_bind, full, List.append_nil, transform_spec _ block,
        ok_bind, run]
      refine ⟨_, rfl, ?_, ?_, bits⟩
      · rw [after]
        rfl
      · rw [after]
        exact ⟨tail', rfl, size'⟩

/-! ## The end -/

/-- The number of bits, as it is written behind the padding. -/
theorem length_bytes {ctx : Ctx} {m : List UInt8} (h : Streaming ctx m) :
    store_le32 ctx.bits_0 ++ store_le32 ctx.bits_1 = encode .little 8 (8 * m.length) := by
  have low : ctx.bits_0.toNat < 256 ^ 4 := ctx.bits_0.isLt
  change _ = split 8 (8 * m.length)
  rw [store_le32_eq, store_le32_eq, ← split_mod 8, show 256 ^ 8 = 2 ^ 64 from rfl, ← h.bits]
  exact (split_add low 4 _).symm

/-- The digest of the registers. -/
theorem output_eq (s : State) :
    store_le32 s.a ++ store_le32 s.b ++ store_le32 s.c ++ store_le32 s.d = md5.output s := by
  simp only [store_le32_eq]
  rfl

/-- The last block, whose last eight bytes become the number of bits. -/
theorem last_block {ctx : Ctx} {m : List UInt8} (h : Streaming ctx m) (buf_ : State)
    {a b : List UInt8} (ha : a.length = 56) (hb : b.length = 8) :
    (do
      let in_ ← store (a ++ b) 56 (store_le32 ctx.bits_0)
      let in_ ← store in_ 60 (store_le32 ctx.bits_1)
      let buf_ ← transform buf_ in_
      return (store_le32 buf_.a ++ store_le32 buf_.b ++ store_le32 buf_.c ++ store_le32 buf_.d,
        init)) =
      .ok (md5.output (Lib.Md5.compress buf_ (a ++ encode .little 8 (8 * m.length))), init) := by
  have four (v : BitVec 32) : (store_le32 v).length = 4 := rfl
  have first : store (a ++ b) 56 (store_le32 ctx.bits_0) =
      .ok (a ++ store_le32 ctx.bits_0 ++ b.drop 4) := store_at ha (by rw [four]; omega)
  have second : store (a ++ store_le32 ctx.bits_0 ++ b.drop 4) 60 (store_le32 ctx.bits_1) =
      .ok (a ++ encode .little 8 (8 * m.length)) := by
    rw [store_at (by rw [List.length_append, ha, four]) (by rw [four, List.length_drop]; omega),
      four, List.drop_drop, List.drop_eq_nil_of_le (by omega), List.append_nil, List.append_assoc,
      length_bytes h]
  have block : (a ++ encode .little 8 (8 * m.length)).length = 64 := by
    rw [List.length_append, ha, encode_length]
  rw [first, ok_bind, second, ok_bind, transform_spec _ block, ok_bind, output_eq]
  rfl

/-- **The end of a message.** -/
theorem final_spec {ctx : Ctx} {m : List UInt8} (h : Streaming ctx m) :
    final ctx = .ok (md5.digest m, init) := by
  obtain ⟨tail, hin, size⟩ := h.buffer
  have rest := md5.after_rest_length m
  have sizes : (md5.after m).2.length + tail.length = 64 := by
    rw [← List.length_append, ← hin, size]
  have zeros (n : Nat) : (List.replicate n (0 : UInt8)).length = n := List.length_replicate
  have marked : store ctx.in_ (m.length % 64) [0x80] =
      .ok ((md5.after m).2 ++ [0x80] ++ tail.drop 1) := by
    rw [hin]
    exact store_at rest (by simp only [List.length_singleton]; omega)
  have behind : ((md5.after m).2 ++ [0x80]).length = m.length % 64 + 1 := by
    rw [List.length_append, rest]
    rfl
  rw [final]
  simp only [position h, marked, ok_bind]
  by_cases few : 64 - 1 - m.length % 64 < 8
  · -- The number of bits does not fit behind the padding.
    have filled : clear ((md5.after m).2 ++ [0x80] ++ tail.drop 1) (m.length % 64 + 1)
        (64 - 1 - m.length % 64) =
          .ok ((md5.after m).2 ++ 0x80 :: List.replicate (63 - m.length % 64) 0) := by
      rw [clear, store_at behind (by rw [zeros, List.length_drop]; omega), zeros, List.drop_drop,
        List.drop_eq_nil_of_le (by omega), List.append_nil, List.append_assoc]
      rfl
    have block : ((md5.after m).2 ++ 0x80 :: List.replicate (63 - m.length % 64) 0).length = 64 := by
      rw [List.length_append, List.length_cons, zeros]
      omega
    have cleared : clear ((md5.after m).2 ++ 0x80 :: List.replicate (63 - m.length % 64) 0) 0 56 =
        .ok (List.replicate 56 0 ++
          ((md5.after m).2 ++ 0x80 :: List.replicate (63 - m.length % 64) 0).drop 56) :=
      store_at (a := []) rfl (by
        rw [zeros]
        exact (show 56 ≤ 64 by decide).trans_eq block.symm)
    rw [if_pos few, filled, ok_bind, transform_spec _ block, ok_bind, cleared, ok_bind]
    simp only [pure_bind]
    rw [last_block h _ (zeros 56) (by rw [List.length_drop]; omega), h.state,
      md5.digest_long m (by omega)]
    rfl
  · -- The number of bits goes into the same block.
    have filled : clear ((md5.after m).2 ++ [0x80] ++ tail.drop 1) (m.length % 64 + 1)
        (64 - 1 - m.length % 64 - 8) =
          .ok (((md5.after m).2 ++ 0x80 :: List.replicate (55 - m.length % 64) 0) ++
            tail.drop (56 - m.length % 64)) := by
      have left : 64 - 1 - m.length % 64 - 8 = 55 - m.length % 64 := by omega
      rw [clear, left, store_at behind (by rw [zeros, List.length_drop]; omega), zeros,
        List.drop_drop, List.append_assoc (md5.after m).2,
        show 1 + (55 - m.length % 64) = 56 - m.length % 64 by omega]
      rfl
    rw [if_neg few, filled, ok_bind]
    simp only [pure_bind]
    rw [last_block h _ (by rw [List.length_append, List.length_cons, zeros]; omega)
      (by rw [List.length_drop]; omega), h.state, md5.digest_short m (by omega)]
    rfl

/-! ## Runs -/

/-- The digest after one `ct_md5_update` for each chunk. -/
def run (chunks : List (List UInt8)) : Except Fault (List UInt8) := do
  let ctx ← chunks.foldlM update init
  let (digest, _) ← final ctx
  return digest

/-- Chunk after chunk. -/
theorem updates_spec {ctx : Ctx} {m : List UInt8} (h : Streaming ctx m)
    (chunks : List (List UInt8)) :
    ∃ ctx', chunks.foldlM update ctx = .ok ctx' ∧ Streaming ctx' (m ++ chunks.flatten) := by
  induction chunks generalizing ctx m with
  | nil => exact ⟨ctx, rfl, by rwa [List.flatten_nil, List.append_nil]⟩
  | cons chunk chunks ih =>
    obtain ⟨next, step, streaming⟩ := update_spec h chunk
    obtain ⟨ctx', rest, streaming'⟩ := ih streaming
    refine ⟨ctx', ?_, by rwa [List.flatten_cons, ← List.append_assoc]⟩
    rw [List.foldlM_cons, step, ok_bind, rest]

/-- **Streaming.** However a message is cut into chunks, the digest is that of the message,
and the one that `ct_md5_sum` gives for it. -/
theorem streaming (chunks : List (List UInt8)) :
    run chunks = .ok (md5.digest chunks.flatten) ∧
      sum chunks.flatten = .ok (md5.digest chunks.flatten) := by
  constructor
  · obtain ⟨ctx, updates, streaming⟩ := updates_spec init_spec chunks
    rw [List.nil_append] at streaming
    rw [run, updates, ok_bind, final_spec streaming]
    rfl
  · obtain ⟨ctx, updated, streaming⟩ := update_spec init_spec chunks.flatten
    rw [List.nil_append] at streaming
    rw [sum, updated, ok_bind, final_spec streaming]
    rfl

end Coter.Md5
