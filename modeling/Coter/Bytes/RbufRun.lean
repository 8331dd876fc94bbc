import Coter.Bytes.Rbuf
import Coter.Lib.Machine
import Coter.Lib.Ring

/-!
# The ring buffer is a bounded queue

* `Valid`: what relates `head_`, `tail_`, `len_` and `cap_`;
* `appended`, `removed`: what every operation does to a valid ring;
* `rbuf_refines_fifo`: over every run the bytes between the cursors are a bounded
  first-in first-out queue.
-/

namespace Coter.Rbuf

open Lib.Ring Lib.Machine

/-- The redundant cursors agree. Lengths below `2 ^ 63` do not wrap when added. -/
structure Valid (r : Rbuf) : Prop where
  stored : r.data.length = r.cap
  small : r.cap < 2 ^ 63
  fits : r.len ≤ r.cap
  head : r.head < r.cap ∨ r.cap = 0
  tail : r.tail = (r.head + r.len) % r.cap

/-- The readable bytes, oldest first. -/
def contents (r : Rbuf) : List UInt8 := window r.data r.head r.len

variable {r : Rbuf} {n k : Nat} {b : List UInt8}

theorem init_valid {buffer : List UInt8} (h : buffer.length < 2 ^ 63) : Valid (init buffer) where
  stored := rfl
  small := h
  fits := Nat.zero_le _
  head := by
    unfold init
    dsimp only
    omega
  tail := (Nat.zero_mod _).symm

theorem Valid.contents_length (v : Valid r) : r.contents.length = r.len := by
  have hfits := v.fits
  have hstored := v.stored
  obtain hhead | hzero := v.head
  · exact window_length (by omega) (by omega)
  · have : r.len = 0 := by omega
    simp [contents, window, this]

theorem Valid.tail_wrap (v : Valid r) (h : 0 < r.cap) :
    r.tail = wrap r.cap (r.head + r.len) := by
  have := v.fits
  have := v.head
  rw [v.tail, mod_eq_wrap (by omega)]

theorem Valid.tail_lt (v : Valid r) (h : 0 < r.cap) : r.tail < r.cap := by
  rw [v.tail]
  exact Nat.mod_lt _ h

/-- Cells `b` written from `tail_` on, of which `k` are published. -/
def appended (r : Rbuf) (b : List UInt8) (k : Nat) : Rbuf :=
  { r with
    data := put r.data r.tail b
    tail := (r.head + (r.len + k)) % r.cap
    len := r.len + k }

/-- The oldest `k` bytes dropped. -/
def removed (r : Rbuf) (k : Nat) : Rbuf :=
  { r with head := (r.head + k) % r.cap, len := r.len - k }

theorem appended_nil (v : Valid r) : r.appended [] 0 = r := by
  have ht : r.tail ≤ r.data.length ∨ r.cap = 0 := by
    by_cases hz : r.cap = 0
    · exact Or.inr hz
    · have := v.tail_lt (by omega)
      have := v.stored
      exact Or.inl (by omega)
  have same : put r.data r.tail [] = r.data := by
    obtain ht | hz := ht
    · exact put_nil ht
    · have : r.data = [] := List.length_eq_zero_iff.1 (v.stored.trans hz)
      simp [this, put, Lib.Blocks.write]
  unfold appended
  rw [same, Nat.add_zero, ← v.tail]

theorem appended_valid (v : Valid r) (hb : r.len + b.length ≤ r.cap) (hk : k ≤ b.length) :
    Valid (r.appended b k) := by
  by_cases hz : r.cap = 0
  · obtain rfl : b = [] := List.length_eq_zero_iff.1 (by omega)
    obtain rfl : k = 0 := Nat.le_zero.1 hk
    rwa [appended_nil v]
  · have ht := v.tail_lt (by omega)
    have hs := v.stored
    constructor
    · exact (put_length (by omega) (by omega)).trans hs
    · exact v.small
    · exact Nat.le_trans (Nat.add_le_add_left hk _) hb
    · exact v.head
    · rfl

theorem appended_contents (v : Valid r) (hb : r.len + b.length ≤ r.cap) (hk : k ≤ b.length) :
    (r.appended b k).contents = r.contents ++ b.take k := by
  by_cases hz : r.cap = 0
  · obtain rfl : b = [] := List.length_eq_zero_iff.1 (by omega)
    obtain rfl : k = 0 := Nat.le_zero.1 hk
    simp [appended_nil v]
  · have hs := v.stored
    have hh : r.head < r.data.length := by
      have := v.head
      omega
    have whole := window_put (m := r.data) (b := b) (n := r.len) hh (by omega)
    rw [hs, ← v.tail_wrap (by omega)] at whole
    have cut := congrArg (List.take (r.len + k)) whole
    rw [window_take (by omega), List.take_append, List.take_of_length_le] at cut
    · have len : (window r.data r.head r.len).length = r.len := v.contents_length
      rw [len, Nat.add_sub_cancel_left] at cut
      exact cut
    · have len : (window r.data r.head r.len).length = r.len := v.contents_length
      omega

theorem removed_zero (h : r.head < r.cap ∨ r.cap = 0) : r.removed 0 = r := by
  have same : r.head % r.cap = r.head := by
    obtain hh | hz := h
    · exact Nat.mod_eq_of_lt hh
    · rw [hz, Nat.mod_zero]
  unfold removed
  rw [Nat.add_zero, same, Nat.sub_zero]

theorem removed_valid (v : Valid r) (hk : k ≤ r.len) : Valid (r.removed k) where
  stored := v.stored
  small := v.small
  fits := Nat.le_trans (Nat.sub_le _ _) v.fits
  head := by
    by_cases hz : r.cap = 0
    · exact Or.inr hz
    · exact Or.inl (Nat.mod_lt _ (by omega))
  tail := by
    unfold removed
    dsimp only
    rw [Nat.mod_add_mod, v.tail]
    congr 1
    omega

theorem removed_contents (v : Valid r) (hk : k ≤ r.len) :
    (r.removed k).contents = r.contents.drop k := by
  have hfits := v.fits
  have hs := v.stored
  by_cases hz : r.cap = 0
  · obtain rfl : k = 0 := by omega
    rw [removed_zero v.head, List.drop_zero]
  · have hh := v.head
    unfold contents removed
    dsimp only
    rw [window_drop (by omega) hk (by omega), hs, mod_eq_wrap (by omega)]

/-! ## The operations -/

/-- The cursors lie in the storage, whatever they have to do with each other. -/
structure InRange (r : Rbuf) : Prop where
  stored : r.data.length = r.cap
  word : r.cap < 2 ^ 64
  fits : r.len ≤ r.cap
  head : r.head < r.cap ∨ r.cap = 0
  tail : r.tail < r.cap ∨ r.cap = 0

theorem Valid.inRange (v : Valid r) : InRange r where
  stored := v.stored
  word := Nat.lt_trans v.small (by decide)
  fits := v.fits
  head := v.head
  tail := by
    by_cases hz : r.cap = 0
    · exact Or.inr hz
    · exact Or.inl (v.tail_lt (Nat.pos_of_ne_zero hz))

theorem Valid.head_word (v : Valid r) (h : 0 < min n r.len) :
    r.head + min n r.len < 2 ^ 64 := by
  have hsmall := v.small
  have hfits := v.fits
  have hhead := v.head
  omega

theorem clampFree_eq (i : InRange r) (h : n + r.len < 2 ^ 64) :
    r.clampFree n = min n (r.cap - r.len) := by
  have hword := i.word
  have hfits := i.fits
  unfold clampFree
  rw [usize_of_lt h, usizeSub_of_le hfits hword]
  split <;> omega

theorem clampUsed_eq : r.clampUsed n = min n r.len := by
  unfold clampUsed
  split <;> omega

theorem load_start {src : List UInt8} (h : k ≤ src.length) : load src 0 k = .ok (src.take k) := by
  rw [load_ok (by omega)]
  simp [Lib.Blocks.read]

/-- One or two copies put the bytes around the end. -/
theorem copyIn_spec (i : InRange r) {src : List UInt8} (hpos : 0 < k) (hk : k ≤ r.cap - r.len)
    (hword : r.tail + k < 2 ^ 64) (hsrc : k ≤ src.length) :
    ∃ e, r.copyIn src k = .ok (put r.data r.tail (src.take k), e) ∧
      (if e = r.cap then 0 else e) = (r.tail + k) % r.cap := by
  have hcap := i.word
  have hs := i.stored
  have htail := i.tail
  have hlen : (src.take k).length = k := by
    rw [List.length_take]
    omega
  have next : (r.tail + k) % r.cap = wrap r.cap (r.tail + k) := mod_eq_wrap (by omega)
  have end_ := wrap_cases r.cap (r.tail + k)
  unfold copyIn put
  rw [usize_of_lt hword, next, hlen, hs]
  by_cases hfit : r.tail + k ≤ r.cap
  · refine ⟨r.tail + k, ?_, ?_⟩
    · rw [if_pos hfit, if_pos hfit, load_start hsrc, ok_bind, store_ok (by omega), ok_bind]
    · split <;> omega
  · refine ⟨k - (r.cap - r.tail), ?_, ?_⟩
    · have hfirst : usizeSub r.cap r.tail = r.cap - r.tail := usizeSub_of_le (by omega) (by omega)
      have hrest : usizeSub k (r.cap - r.tail) = k - (r.cap - r.tail) :=
        usizeSub_of_le (by omega) (by omega)
      have front : (src.take k).take (r.cap - r.tail) = src.take (r.cap - r.tail) := by
        rw [List.take_take, Nat.min_eq_left (by omega)]
      have back : (src.take k).drop (r.cap - r.tail) =
          Lib.Blocks.read src (r.cap - r.tail) (k - (r.cap - r.tail)) := List.drop_take
      have frontLen : (src.take (r.cap - r.tail)).length = r.cap - r.tail := by
        rw [List.length_take]
        omega
      have backLen := Lib.Blocks.read_length (m := src) (o := r.cap - r.tail)
        (w := k - (r.cap - r.tail)) (by omega)
      have first : (Lib.Blocks.write r.data r.tail (src.take (r.cap - r.tail))).length =
          r.data.length := Lib.Blocks.write_length (by omega)
      rw [if_neg hfit, if_neg hfit, hfirst]
      dsimp only
      rw [hrest, load_start (by omega), ok_bind, store_ok (by omega), ok_bind,
        load_ok (by omega), ok_bind, store_ok (by omega), ok_bind, front, back]
    · split <;> omega

theorem write_spec (v : Valid r) {src : List UInt8} (hn : n < 2 ^ 63) (hsrc : n ≤ src.length) :
    r.write (some src) n =
      .ok (min n (r.cap - r.len), r.appended (src.take (min n (r.cap - r.len)))
        (min n (r.cap - r.len))) := by
  have hsmall := v.small
  have hfits := v.fits
  unfold write
  dsimp only
  rw [clampFree_eq v.inRange (by omega)]
  obtain ⟨k, hk⟩ : ∃ k, min n (r.cap - r.len) = k := ⟨_, rfl⟩
  rw [hk]
  by_cases hzero : k = 0
  · rw [if_pos hzero, hzero, List.take_zero, appended_nil v]
  · have htail := v.tail_lt (by omega)
    obtain ⟨e, hcopy, he⟩ := copyIn_spec v.inRange (by omega : 0 < k) (by omega) (by omega)
      (by omega : k ≤ src.length)
    rw [if_neg hzero, hcopy, ok_bind]
    unfold appended
    rw [usize_of_lt (by omega), he, v.tail, Nat.mod_add_mod, Nat.add_assoc]

theorem copyOut_spec (i : InRange r) {dst : List UInt8} (hpos : 0 < k) (hk : k ≤ r.len)
    (hword : r.head + k < 2 ^ 64) (hdst : k ≤ dst.length) :
    ∃ e, r.copyOut dst k = .ok (r.contents.take k ++ dst.drop k, e) ∧
      (if e = r.cap then 0 else e) = (r.head + k) % r.cap := by
  have hcap := i.word
  have hs := i.stored
  have hfits := i.fits
  have hhead := i.head
  have next : (r.head + k) % r.cap = wrap r.cap (r.head + k) := mod_eq_wrap (by omega)
  have end_ := wrap_cases r.cap (r.head + k)
  unfold copyOut contents
  rw [usize_of_lt hword, next, window_take hk]
  by_cases hfit : r.head + k ≤ r.cap
  · have hlen := Lib.Blocks.read_length (m := r.data) (o := r.head) (w := k) (by omega)
    refine ⟨r.head + k, ?_, ?_⟩
    · rw [if_pos hfit, load_ok (by omega), ok_bind, store_ok (by omega), ok_bind,
        Lib.Blocks.write_start, hlen, window_straight (by omega)]
    · split <;> omega
  · have hfirst : usizeSub r.cap r.head = r.cap - r.head := usizeSub_of_le (by omega) (by omega)
    have hrest : usizeSub k (r.cap - r.head) = k - (r.cap - r.head) :=
      usizeSub_of_le (by omega) (by omega)
    have frontLen := Lib.Blocks.read_length (m := r.data) (o := r.head) (w := r.cap - r.head)
      (by omega)
    have backLen := Lib.Blocks.read_length (m := r.data) (o := 0) (w := k - (r.cap - r.head))
      (by omega)
    refine ⟨k - (r.cap - r.head), ?_, ?_⟩
    · have second := Lib.Blocks.write_behind (Lib.Blocks.read r.data r.head (r.cap - r.head))
        (dst.drop (r.cap - r.head)) (Lib.Blocks.read r.data 0 (k - (r.cap - r.head)))
      rw [frontLen, backLen, List.drop_drop, show r.cap - r.head + (k - (r.cap - r.head)) = k by omega]
        at second
      rw [if_neg hfit, hfirst]
      dsimp only
      rw [hrest, load_ok (by omega), ok_bind, store_ok (by omega), ok_bind,
        load_ok (by omega), ok_bind, Lib.Blocks.write_start, frontLen, store_ok, ok_bind, second,
        window_around (by omega) (by omega) (by omega), hs]
      simp only [List.length_append, List.length_drop]
      omega
    · split <;> omega

theorem read_spec (i : InRange r) {dst : List UInt8}
    (hword : 0 < min n r.len → r.head + min n r.len < 2 ^ 64) (hdst : min n r.len ≤ dst.length) :
    r.read (some dst) n =
      .ok (min n r.len, some (r.contents.take (min n r.len) ++ dst.drop (min n r.len)),
        r.removed (min n r.len)) := by
  have hcap := i.word
  have hfits := i.fits
  unfold read
  dsimp only
  rw [clampUsed_eq]
  obtain ⟨k, hk⟩ : ∃ k, min n r.len = k := ⟨_, rfl⟩
  rw [hk] at hword hdst ⊢
  by_cases hzero : k = 0
  · rw [if_pos hzero, hzero, removed_zero i.head, List.take_zero, List.drop_zero,
      List.nil_append]
  · obtain ⟨e, hcopy, he⟩ := copyOut_spec i (by omega : 0 < k) (by omega) (hword (by omega))
      hdst
    rw [if_neg hzero, hcopy, ok_bind]
    unfold removed
    rw [usizeSub_of_le (by omega) (by omega), he]

theorem peek_spec (i : InRange r) {dst : List UInt8}
    (hword : 0 < min n r.len → r.head + min n r.len < 2 ^ 64) (hdst : min n r.len ≤ dst.length) :
    r.peek (some dst) n =
      .ok (min n r.len, some (r.contents.take (min n r.len) ++ dst.drop (min n r.len))) := by
  unfold peek
  dsimp only
  rw [clampUsed_eq]
  obtain ⟨k, hk⟩ : ∃ k, min n r.len = k := ⟨_, rfl⟩
  rw [hk] at hword hdst ⊢
  by_cases hzero : k = 0
  · rw [if_pos hzero, hzero, List.take_zero, List.drop_zero, List.nil_append]
  · obtain ⟨e, hcopy, -⟩ := copyOut_spec i (by omega : 0 < k) (by omega) (hword (by omega))
      hdst
    rw [if_neg hzero, hcopy, ok_bind]

theorem remove_spec (i : InRange r) (hword : 0 < min n r.len → r.head + min n r.len < 2 ^ 64) :
    r.remove n = (min n r.len, r.removed (min n r.len)) := by
  have hcap := i.word
  have hfits := i.fits
  have hhead := i.head
  unfold remove
  rw [clampUsed_eq]
  obtain ⟨k, hk⟩ : ∃ k, min n r.len = k := ⟨_, rfl⟩
  rw [hk] at hword ⊢
  by_cases hzero : 0 < k
  · have hword := hword hzero
    have next := wrap_cases r.cap (r.head + k)
    have hhead' : (if r.cap ≤ r.head + k then usizeSub (r.head + k) r.cap else r.head + k) =
        (r.head + k) % r.cap := by
      rw [mod_eq_wrap (by omega)]
      split
      · rw [usizeSub_of_le (by omega) (by omega)]
        omega
      · omega
    have hlen : usizeSub r.len k = r.len - k := usizeSub_of_le (by omega) (by omega)
    dsimp only
    rw [if_pos hzero, usize_of_lt (by omega), hlen, hhead']
    rfl
  · have : k = 0 := by omega
    dsimp only
    rw [if_neg hzero, this, removed_zero i.head]

theorem commit_spec (v : Valid r) (hk : k ≤ r.cap - r.len) :
    r.commit k = (k, { r with tail := (r.head + (r.len + k)) % r.cap, len := r.len + k }) := by
  have hsmall := v.small
  have hfits := v.fits
  have clamped : r.clampFree k = k := by
    rw [clampFree_eq v.inRange (by omega)]
    omega
  unfold commit
  rw [clamped]
  by_cases hzero : 0 < k
  · have htail := v.tail_lt (by omega)
    have next := wrap_cases r.cap (r.tail + k)
    have htail' : (if r.cap ≤ r.tail + k then usizeSub (r.tail + k) r.cap else r.tail + k) =
        (r.head + (r.len + k)) % r.cap := by
      rw [← Nat.add_assoc, ← Nat.mod_add_mod, ← v.tail, mod_eq_wrap (by omega)]
      split
      · rw [usizeSub_of_le (by omega) (by omega)]
        omega
      · omega
    dsimp only
    rw [if_pos hzero, usize_of_lt (by omega), usize_of_lt (by omega), htail']
  · obtain rfl : k = 0 := by omega
    dsimp only
    rw [if_neg hzero, Nat.add_zero, ← v.tail]

/-! ## Spans -/

/-- Cell `i` of the storage holds a readable byte. -/
def Readable (r : Rbuf) (i : Nat) : Prop := ∃ j, j < r.len ∧ i = (r.head + j) % r.cap

theorem readPtr_eq (v : Valid r) :
    r.readPtr = if r.len = 0 then (none, 0) else (some r.head, min r.len (r.cap - r.head)) := by
  have hsmall := v.small
  have hfits := v.fits
  have hhead := v.head
  unfold readPtr
  by_cases hzero : r.len = 0
  · rw [if_pos hzero, if_pos hzero]
  · rw [if_neg hzero, if_neg hzero, usizeSub_of_le (by omega) (by omega)]
    rfl

theorem writePtr_eq (v : Valid r) :
    r.writePtr =
      if r.len = r.cap then (none, 0) else (some r.tail, min (r.cap - r.len) (r.cap - r.tail)) := by
  have hsmall := v.small
  have hfits := v.fits
  unfold writePtr
  rw [usizeSub_of_le hfits (by omega)]
  by_cases hfull : r.len = r.cap
  · rw [if_pos (by omega), if_pos hfull]
  · have htail := v.tail_lt (by omega)
    rw [if_neg (by omega), if_neg hfull, usizeSub_of_le (by omega) (by omega)]
    rfl

/-- The span of `ct_rbuf_read_ptr` is not empty, lies in the readable region and
starts with the oldest byte, unless the ring is empty. -/
theorem read_span (v : Valid r) (h : r.len ≠ 0) : ∃ n, r.readPtr = (some r.head, n) ∧ 0 < n ∧
    load r.data r.head n = .ok (r.contents.take n) ∧
    ∀ i, r.head ≤ i → i < r.head + n → i < r.cap ∧ Readable r i := by
  have hfits := v.fits
  have hhead := v.head
  have hs := v.stored
  refine ⟨min r.len (r.cap - r.head), ?_, by omega, ?_, fun i hlo hhi => ⟨by omega, i - r.head, ?_⟩⟩
  · rw [readPtr_eq v, if_neg h]
  · unfold contents
    rw [window_take (by omega), window_straight (by omega), load_ok (by omega)]
  · refine ⟨by omega, ?_⟩
    rw [Nat.mod_eq_of_lt (by omega)]
    omega

/-- The span of `ct_rbuf_write_ptr` is not empty and lies in the free region,
unless the ring is full. -/
theorem write_span (v : Valid r) (h : r.len ≠ r.cap) : ∃ n, r.writePtr = (some r.tail, n) ∧ 0 < n ∧
    ∀ i, r.tail ≤ i → i < r.tail + n → i < r.cap ∧ ¬ Readable r i := by
  have hfits := v.fits
  have hhead := v.head
  have htail := v.tail_lt (by omega)
  have hwrap := v.tail_wrap (by omega)
  have end_ := wrap_cases r.cap (r.head + r.len)
  refine ⟨min (r.cap - r.len) (r.cap - r.tail), ?_, by omega, fun i hlo hhi => ⟨by omega, ?_⟩⟩
  · rw [writePtr_eq v, if_neg h]
  · rintro ⟨j, hj, hi⟩
    rw [mod_eq_wrap (by omega)] at hi
    have cell := wrap_cases r.cap (r.head + j)
    omega

/-- The client fills the span and commits `k` bytes of it. -/
theorem produce_spec (v : Valid r) (hb : b.length = r.writePtr.2) (hk : k ≤ b.length) :
    ∃ r₁, r.fill r.writePtr.1 b = .ok r₁ ∧ r₁.commit k = (k, r.appended b k) ∧
      r.len + b.length ≤ r.cap := by
  have hfits := v.fits
  have hs := v.stored
  by_cases hfull : r.len = r.cap
  · have hptr : r.writePtr = (none, 0) := by
      rw [writePtr_eq v, if_pos hfull]
    rw [hptr] at hb ⊢
    obtain rfl : b = [] := List.length_eq_zero_iff.1 hb
    obtain rfl : k = 0 := Nat.le_zero.1 hk
    refine ⟨r, rfl, ?_, by simpa using hfits⟩
    rw [commit_spec v (Nat.zero_le _), appended_nil v, Nat.add_zero, ← v.tail]
  · have hptr : r.writePtr = (some r.tail, min (r.cap - r.len) (r.cap - r.tail)) := by
      rw [writePtr_eq v, if_neg hfull]
    have htail := v.tail_lt (by omega)
    rw [hptr] at hb ⊢
    dsimp only at hb
    have hput : put r.data r.tail b = Lib.Blocks.write r.data r.tail b := by
      unfold put
      rw [if_pos (by omega)]
    have filled : Valid (r.appended b 0) := appended_valid v (by omega) (Nat.zero_le _)
    refine ⟨r.appended b 0, ?_, ?_, by omega⟩
    · unfold fill appended
      dsimp only
      rw [store_ok (by omega), ok_bind, hput, Nat.add_zero, ← v.tail]
    · rw [commit_spec filled]
      · rfl
      · unfold appended
        dsimp only
        omega

theorem drain_empty (v : Valid r) (h : r.len = 0) (fuel : Nat) : r.drain fuel = .ok ([], r) := by
  have hptr : r.readPtr = (none, 0) := by rw [readPtr_eq v, if_pos h]
  cases fuel <;> simp only [drain, hptr]

theorem drain_turn (v : Valid r) (h : r.len ≠ 0) {fuel : Nat} {rest : List UInt8} {r' : Rbuf}
    (hrest : (r.removed (min r.len (r.cap - r.head))).drain fuel = .ok (rest, r')) :
    r.drain (fuel + 1) = .ok (r.contents.take (min r.len (r.cap - r.head)) ++ rest, r') := by
  have hptr : r.readPtr = (some r.head, min r.len (r.cap - r.head)) := by
    rw [readPtr_eq v, if_neg h]
  obtain ⟨n, hn, -, hload, -⟩ := read_span v h
  obtain rfl : n = min r.len (r.cap - r.head) := by
    rw [hptr] at hn
    exact (congrArg Prod.snd hn).symm
  have hmin : min (min r.len (r.cap - r.head)) r.len = min r.len (r.cap - r.head) := by omega
  simp only [drain, hptr, hload, ok_bind, remove_spec v.inRange v.head_word, hmin, hrest]

/-- At most two spans hold all bytes. -/
theorem drain_spec (v : Valid r) {fuel : Nat} (hfuel : 2 ≤ fuel) :
    r.drain fuel = .ok (r.contents, r.removed r.len) := by
  obtain ⟨fuel, rfl⟩ : ∃ f, fuel = f + 2 := ⟨fuel - 2, by omega⟩
  have hfits := v.fits
  have hhead := v.head
  have hlen := v.contents_length
  by_cases hzero : r.len = 0
  · have : r.contents = [] := List.length_eq_zero_iff.1 (hlen.trans hzero)
    rw [drain_empty v hzero, this, hzero, removed_zero v.head]
  · obtain ⟨k, hk⟩ : ∃ k, min r.len (r.cap - r.head) = k := ⟨_, rfl⟩
    have v₁ : Valid (r.removed k) := removed_valid v (by omega)
    have hlen₁ : (r.removed k).len = r.len - k := rfl
    have hcap₁ : (r.removed k).cap = r.cap := rfl
    have all : (r.removed k).removed (r.len - k) = r.removed r.len := by
      unfold removed
      dsimp only
      rw [Nat.mod_add_mod, Nat.add_assoc, show k + (r.len - k) = r.len by omega, Nat.sub_self,
        Nat.sub_self]
    have rest : (r.removed k).drain (fuel + 1) = .ok (r.contents.drop k, r.removed r.len) := by
      by_cases hall : k = r.len
      · rw [hall] at v₁ hlen₁ ⊢
        rw [drain_empty v₁ (by omega), ← hlen, List.drop_length]
      · have start : (r.removed k).head = 0 := by
          have : r.head + k = r.cap := by omega
          unfold removed
          dsimp only
          rw [this, Nat.mod_self]
        have span : min (r.removed k).len ((r.removed k).cap - (r.removed k).head) = r.len - k := by
          rw [start, hlen₁, hcap₁]
          omega
        have last : ((r.removed k).removed (r.len - k)).drain fuel = .ok ([], r.removed r.len) := by
          rw [drain_empty (removed_valid v₁ (by omega)) (by simp [removed]), all]
        have turn := drain_turn v₁ (by omega) (span.symm ▸ last)
        rw [span, removed_contents v (by omega), List.append_nil, List.take_of_length_le] at turn
        · exact turn
        · rw [List.length_drop]
          omega
    have turn := drain_turn v hzero (hk.symm ▸ rest)
    rwa [hk, List.take_append_drop] at turn

/-! ## Runs -/

/-- Calls of a client. `produce` is `ct_rbuf_write_ptr`, stores of the client that
leave `bytes` in the span, and `ct_rbuf_commit` of `k`. -/
inductive Op
  | write (src : Option (List UInt8)) (n : Nat)
  | read (dst : Option (List UInt8)) (n : Nat)
  | peek (dst : Option (List UInt8)) (n : Nat)
  | remove (n : Nat)
  | clear
  | produce (bytes : List UInt8) (k : Nat)

/-- The returned count, and what the destination holds after the call. -/
abbrev Answer := Nat × Option (List UInt8)

def step (r : Rbuf) : Op → Except Fault (Answer × Rbuf)
  | .write src n => do
    let (k, r) ← r.write src n
    .ok ((k, none), r)
  | .read dst n => do
    let (k, dst, r) ← r.read dst n
    .ok ((k, dst), r)
  | .peek dst n => do
    let (k, dst) ← r.peek dst n
    .ok ((k, dst), r)
  | .remove n =>
    let (k, r) := r.remove n
    .ok ((k, none), r)
  | .clear => .ok ((0, none), r.clear)
  | .produce bytes k => do
    let r ← r.fill r.writePtr.1 bytes
    let (k, r) := r.commit k
    .ok ((k, none), r)

/-- The same calls on a bounded first-in first-out queue of bytes. -/
def fifo (cap : Nat) (q : List UInt8) : Op → Answer × List UInt8
  | .write none _ => ((0, none), q)
  | .write (some src) n =>
    ((min n (cap - q.length), none), q ++ src.take (min n (cap - q.length)))
  | .read none _ => ((0, none), q)
  | .read (some dst) n =>
    ((min n q.length, some (q.take (min n q.length) ++ dst.drop (min n q.length))),
      q.drop (min n q.length))
  | .peek none _ => ((0, none), q)
  | .peek (some dst) n =>
    ((min n q.length, some (q.take (min n q.length) ++ dst.drop (min n q.length))), q)
  | .remove n => ((min n q.length, none), q.drop (min n q.length))
  | .clear => ((0, none), [])
  | .produce bytes k => ((k, none), q ++ bytes.take k)

/-- Requests are below `2 ^ 63` and name buffers of that size, and a client of
`ct_rbuf_write_ptr` stays in the span it was given. -/
def Allowed (r : Rbuf) : Op → Prop
  | .write src n => n < 2 ^ 63 ∧ ∀ m ∈ src, n ≤ m.length
  | .read dst n | .peek dst n => n < 2 ^ 63 ∧ ∀ m ∈ dst, n ≤ m.length
  | .remove n => n < 2 ^ 63
  | .clear => True
  | .produce bytes k => bytes.length = r.writePtr.2 ∧ k ≤ r.writePtr.2

instance (r : Rbuf) : DecidablePred (Allowed r)
  | .write _ _ | .read _ _ | .peek _ _ => inferInstanceAs (Decidable (_ ∧ _))
  | .remove _ => inferInstanceAs (Decidable (_ < _))
  | .clear => inferInstanceAs (Decidable True)
  | .produce _ _ => inferInstanceAs (Decidable (_ ∧ _))

/-- A valid ring, whose spans lie where they should, and which drains through its
spans as it does through a copying read. -/
structure Sound (r : Rbuf) : Prop where
  valid : Valid r
  empty : r.len = 0 → r.readPtr = (none, 0)
  readSpan : r.len ≠ 0 → ∃ n, r.readPtr = (some r.head, n) ∧ 0 < n ∧
    load r.data r.head n = .ok (r.contents.take n) ∧
    ∀ i, r.head ≤ i → i < r.head + n → i < r.cap ∧ Readable r i
  full : r.len = r.cap → r.writePtr = (none, 0)
  writeSpan : r.len ≠ r.cap → ∃ n, r.writePtr = (some r.tail, n) ∧ 0 < n ∧
    ∀ i, r.tail ≤ i → i < r.tail + n → i < r.cap ∧ ¬ Readable r i
  drains : ∀ fuel dst n, 2 ≤ fuel → r.len ≤ n → n ≤ dst.length →
    ∃ bytes r', r.drain fuel = .ok (bytes, r') ∧
      r.read (some dst) n = .ok (r.len, some (bytes ++ dst.drop r.len), r')

theorem Valid.sound (v : Valid r) : Sound r where
  valid := v
  empty h := by rw [readPtr_eq v, if_pos h]
  readSpan := read_span v
  full h := by rw [writePtr_eq v, if_pos h]
  writeSpan := write_span v
  drains fuel dst n hfuel hn hdst := by
    refine ⟨r.contents, r.removed r.len, drain_spec v hfuel, ?_⟩
    rw [read_spec v.inRange v.head_word (by omega), Nat.min_eq_right hn, List.take_of_length_le]
    exact Nat.le_of_eq v.contents_length

/-- What a call answers and does is what it answers and does on the queue. -/
def Refines (r : Rbuf) (op : Op) (a : Answer) (r' : Rbuf) : Prop :=
  (a, r'.contents) = fifo r.cap r.contents op ∧ r'.cap = r.cap

theorem step_refines (v : Valid r) (op : Op) (h : Allowed r op) :
    ∃ a r', step r op = .ok (a, r') ∧ Refines r op a r' ∧ Valid r' := by
  have hfits := v.fits
  have hlen := v.contents_length
  cases op with
  | write src n =>
    cases src with
    | none => exact ⟨_, r, rfl, ⟨rfl, rfl⟩, v⟩
    | some src =>
      obtain ⟨hn, hsrc⟩ := h
      have hsrc : n ≤ src.length := hsrc src rfl
      have short : (src.take (min n (r.cap - r.len))).length = min n (r.cap - r.len) := by
        rw [List.length_take]
        omega
      refine ⟨(min n (r.cap - r.len), none), r.appended (src.take (min n (r.cap - r.len)))
        (min n (r.cap - r.len)), ?_, ⟨?_, rfl⟩, ?_⟩
      · simp only [step, write_spec v hn hsrc, ok_bind]
      · rw [appended_contents v (by omega) (by omega), fifo, hlen, List.take_take, Nat.min_self]
      · exact appended_valid v (by omega) (by omega)
  | read dst n =>
    cases dst with
    | none => exact ⟨_, r, rfl, ⟨rfl, rfl⟩, v⟩
    | some dst =>
      have hdst : n ≤ dst.length := h.2 dst rfl
      refine ⟨(min n r.len, some (r.contents.take (min n r.len) ++ dst.drop (min n r.len))),
        r.removed (min n r.len), ?_, ⟨?_, rfl⟩, ?_⟩
      · have fits : min n r.len ≤ dst.length := Nat.le_trans (Nat.min_le_left ..) hdst
        simp only [step, read_spec v.inRange v.head_word fits, ok_bind]
      · rw [removed_contents v (by omega), fifo, hlen]
      · exact removed_valid v (by omega)
  | peek dst n =>
    cases dst with
    | none => exact ⟨_, r, rfl, ⟨rfl, rfl⟩, v⟩
    | some dst =>
      have hdst : n ≤ dst.length := h.2 dst rfl
      refine ⟨(min n r.len, some (r.contents.take (min n r.len) ++ dst.drop (min n r.len))), r, ?_,
        ⟨?_, rfl⟩, v⟩
      · have fits : min n r.len ≤ dst.length := Nat.le_trans (Nat.min_le_left ..) hdst
        simp only [step, peek_spec v.inRange v.head_word fits, ok_bind]
      · rw [fifo, hlen]
  | remove n =>
    refine ⟨(min n r.len, none), r.removed (min n r.len), ?_, ⟨?_, rfl⟩, ?_⟩
    · simp only [step, remove_spec v.inRange v.head_word]
    · rw [removed_contents v (by omega), fifo, hlen]
    · exact removed_valid v (by omega)
  | clear =>
    refine ⟨_, _, rfl, ⟨rfl, rfl⟩, ?_⟩
    have := v.head
    exact ⟨v.stored, v.small, Nat.zero_le _, by unfold clear; dsimp only; omega, (Nat.zero_mod _).symm⟩
  | produce bytes k =>
    obtain ⟨hb, hk⟩ := h
    obtain ⟨r₁, hfill, hcommit, hroom⟩ := produce_spec v hb (hb ▸ hk)
    refine ⟨(k, none), r.appended bytes k, ?_, ⟨?_, rfl⟩, ?_⟩
    · simp only [step, hfill, ok_bind, hcommit]
    · rw [appended_contents v hroom (hb ▸ hk), fifo]
    · exact appended_valid v hroom (hb ▸ hk)

/-- **The ring is a bounded queue.** Over every run of allowed calls no access
leaves the storage, the cursors stay in step, and each call answers and does what
it does on a first-in first-out queue of at most `cap_` bytes. -/
theorem rbuf_refines_fifo {buffer : List UInt8} (hcap : buffer.length < 2 ^ 63) (ops : List Op)
    (h : Meets step Allowed (init buffer) ops) : Along step Sound Refines (init buffer) ops :=
  along_of_meets (fun _ v => Valid.sound v) (fun _ op v hop => step_refines v op hop)
    (init_valid hcap) h

/-- Three bytes around the end of a ring of four, then read back. -/
theorem rbuf_refines_fifo_four :
    Along step Sound Refines (init [0, 0, 0, 0])
      [.write (some [1, 2, 3]) 3, .remove 2, .produce [4] 1, .produce [5, 6] 1,
        .read (some [9, 9, 9, 9]) 4] := by
  apply rbuf_refines_fifo (by decide)
  decide

end Coter.Rbuf
