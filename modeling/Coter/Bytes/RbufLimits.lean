import Coter.Bytes.RbufRun

/-!
# Requests of any size on a ring buffer

* `served`: what a request of `n` bytes is to do, cut down to what is free or stored;
* `Limited`: the request does this and leaves the cursors in the storage;
* `clampFree_wrap`: a sum of two lengths that wraps passes for a small one;
* `limited_iff`: over all rings and lengths, a request is limited exactly if no sum wraps.
-/

namespace Coter.Rbuf

open Lib.Ring

/-- A request for `n` bytes. -/
inductive Request
  | write (src : List UInt8) (n : Nat)
  | commit (n : Nat)
  | read (dst : List UInt8) (n : Nat)
  | peek (dst : List UInt8) (n : Nat)
  | remove (n : Nat)

def serve (r : Rbuf) : Request → Except Fault (Answer × Rbuf)
  | .write src n => do
    let (k, r) ← r.write (some src) n
    .ok ((k, none), r)
  | .commit n =>
    let (k, r) := r.commit n
    .ok ((k, none), r)
  | .read dst n => do
    let (k, dst, r) ← r.read (some dst) n
    .ok ((k, dst), r)
  | .peek dst n => do
    let (k, dst) ← r.peek (some dst) n
    .ok ((k, dst), r)
  | .remove n =>
    let (k, r) := r.remove n
    .ok ((k, none), r)

/-- The bytes that a request is about. -/
def amount (r : Rbuf) : Request → Nat
  | .write _ n | .commit n => min n (r.cap - r.len)
  | .read _ n | .peek _ n | .remove n => min n r.len

/-- `k` more bytes are readable. -/
def published (r : Rbuf) (k : Nat) : Rbuf :=
  { r with tail := (r.tail + k) % r.cap, len := r.len + k }

def written (r : Rbuf) (b : List UInt8) (k : Nat) : Rbuf :=
  { r.published k with data := put r.data r.tail b }

/-- What the request is to answer and do, for its amount `k`. -/
def served (r : Rbuf) (k : Nat) : Request → Answer × Rbuf
  | .write src _ => ((k, none), r.written (src.take k) k)
  | .commit _ => ((k, none), r.published k)
  | .read dst _ => ((k, some (r.contents.take k ++ dst.drop k)), r.removed k)
  | .peek dst _ => ((k, some (r.contents.take k ++ dst.drop k)), r)
  | .remove _ => ((k, none), r.removed k)

/-- Lengths are of type `size_t`, and the caller's block has room for what is copied. -/
def Typed (r : Rbuf) (q : Request) : Prop :=
  match q with
  | .write b n | .read b n | .peek b n => n < 2 ^ 64 ∧ r.amount q ≤ b.length
  | .commit n | .remove n => n < 2 ^ 64

instance (r : Rbuf) : DecidablePred (Typed r)
  | .write .. | .read .. | .peek .. => inferInstanceAs (Decidable (_ ∧ _))
  | .commit _ | .remove _ => inferInstanceAs (Decidable (_ < _))

/-- The sum in the check of a write or commit is a `size_t`, and so is the cursor
behind the bytes. -/
def NoWrap (r : Rbuf) (q : Request) : Prop :=
  match q with
  | .write _ n | .commit n =>
    n + r.len < 2 ^ 64 ∧ (0 < r.amount q → r.tail + r.amount q < 2 ^ 64)
  | .read .. | .peek .. | .remove _ => 0 < r.amount q → r.head + r.amount q < 2 ^ 64

/-- The request is served for exactly its amount, and the cursors stay in the storage. -/
structure Limited (r : Rbuf) (q : Request) : Prop where
  exact : r.serve q = .ok (r.served (r.amount q) q)
  inRange : InRange (r.served (r.amount q) q).2

variable {r r' : Rbuf} {n k : Nat} {b : List UInt8} {q : Request}

/-! ## The cursors -/

theorem InRange.tail_stay (i : InRange r) : r.tail % r.cap = r.tail := by
  obtain htail | hz := i.tail
  · exact Nat.mod_eq_of_lt htail
  · rw [hz, Nat.mod_zero]

theorem published_inRange (i : InRange r) (hk : k ≤ r.cap - r.len) : InRange (r.published k) where
  stored := i.stored
  word := i.word
  fits := by
    have := i.fits
    unfold published
    dsimp only
    omega
  head := i.head
  tail := by
    by_cases hz : r.cap = 0
    · exact Or.inr hz
    · exact Or.inl (Nat.mod_lt _ (Nat.pos_of_ne_zero hz))

theorem written_inRange (i : InRange r) (hk : b.length ≤ r.cap - r.len) :
    InRange (r.written b b.length) := by
  have hs := i.stored
  have htail := i.tail
  have moved := published_inRange i hk
  refine ⟨?_, moved.word, moved.fits, moved.head, moved.tail⟩
  by_cases hz : r.cap = 0
  · have hb : b = [] := List.length_eq_zero_iff.1 (by omega)
    have hdata : r.data = [] := List.length_eq_zero_iff.1 (hs.trans hz)
    simp [written, published, hb, hdata, put, Lib.Blocks.write, hz]
  · exact (put_length (by omega) (by omega)).trans hs

theorem removed_inRange (i : InRange r) (k : Nat) : InRange (r.removed k) where
  stored := i.stored
  word := i.word
  fits := Nat.le_trans (Nat.sub_le _ _) i.fits
  head := by
    by_cases hz : r.cap = 0
    · exact Or.inr hz
    · exact Or.inl (Nat.mod_lt _ (Nat.pos_of_ne_zero hz))
  tail := i.tail

theorem served_inRange (i : InRange r) (typed : Typed r q) :
    InRange (r.served (r.amount q) q).2 := by
  cases q with
  | write src n =>
    have short : (src.take (min n (r.cap - r.len))).length = min n (r.cap - r.len) := by
      rw [List.length_take]
      exact Nat.min_eq_left typed.2
    have moved := written_inRange (b := src.take (min n (r.cap - r.len))) i (by omega)
    rw [short] at moved
    exact moved
  | commit n => exact published_inRange i (Nat.min_le_right ..)
  | read dst n => exact removed_inRange i _
  | peek dst n => exact i
  | remove n => exact removed_inRange i _

/-- A cursor that moves by `k` cells around the ring, as `ct_rbuf_commit` and
`ct_rbuf_remove` compute it. -/
theorem cursor_iff {c p : Nat} (hc : c < 2 ^ 64) (hp : p < c) (hk : 0 < k) (hkc : k ≤ c) :
    (if c ≤ usize (p + k) then usizeSub (usize (p + k)) c else usize (p + k)) = (p + k) % c ↔
      p + k < 2 ^ 64 := by
  have round := wrap_cases c (p + k)
  rw [mod_eq_wrap (by omega)]
  constructor
  · intro same
    by_contra hwrap
    have small : usize (p + k) = p + k - 2 ^ 64 := by
      unfold usize
      omega
    rw [small, if_neg (by omega)] at same
    omega
  · intro hfit
    rw [usize_of_lt hfit]
    split
    · rw [usizeSub_of_le (by omega) hfit]
      omega
    · omega

/-! ## Where the sums wrap -/

/-- The whole request passes the check. -/
theorem clampFree_wrap (i : InRange r) (hn : n < 2 ^ 64) (hwrap : 2 ^ 64 ≤ n + r.len) :
    r.clampFree n = n ∧ r.cap - r.len < n := by
  have hword := i.word
  have hfits := i.fits
  have small : usize (n + r.len) = n + r.len - 2 ^ 64 := by
    unfold usize
    omega
  refine ⟨?_, by omega⟩
  unfold clampFree
  rw [small, if_neg (by omega)]

theorem clampFree_iff (i : InRange r) (hn : n < 2 ^ 64) :
    r.clampFree n = min n (r.cap - r.len) ↔ n + r.len < 2 ^ 64 := by
  constructor
  · intro same
    by_contra hwrap
    obtain ⟨whole, more⟩ := clampFree_wrap i hn (Nat.le_of_not_lt hwrap)
    omega
  · exact clampFree_eq i

theorem write_count {k : Nat} (h : r.write (some b) n = .ok (k, r')) : k = r.clampFree n := by
  unfold write at h
  dsimp only at h
  split at h
  · rename_i hzero
    rw [hzero]
    cases h
    rfl
  · obtain ⟨⟨data, tail⟩, -, h⟩ := ok_of_bind h
    simp only [Except.ok.injEq, Prod.mk.injEq] at h
    exact h.1.symm

/-- Bytes copied in one piece behind the end of the storage. -/
theorem copyIn_wrap (i : InRange r) (hk : k ≤ r.cap) (htail : r.tail < r.cap)
    (hwrap : 2 ^ 64 ≤ r.tail + k) (hb : k ≤ b.length) : r.copyIn b k = .error .bounds := by
  have hword := i.word
  have hs := i.stored
  have small : usize (r.tail + k) = r.tail + k - 2 ^ 64 := by
    unfold usize
    omega
  have hlen : (b.take k).length = k := by
    rw [List.length_take]
    omega
  unfold copyIn
  rw [small, if_pos (by omega), load_start hb, ok_bind, store_bounds (by omega)]
  rfl

theorem copyOut_wrap (i : InRange r) (hk : k ≤ r.cap) (hhead : r.head < r.cap)
    (hwrap : 2 ^ 64 ≤ r.head + k) : r.copyOut b k = .error .bounds := by
  have hword := i.word
  have hs := i.stored
  have small : usize (r.head + k) = r.head + k - 2 ^ 64 := by
    unfold usize
    omega
  unfold copyOut
  rw [small, if_pos (by omega), load, if_neg (by omega)]
  rfl

/-! ## Each request -/

theorem write_eq (i : InRange r) (hn : n + r.len < 2 ^ 64)
    (hword : 0 < min n (r.cap - r.len) → r.tail + min n (r.cap - r.len) < 2 ^ 64)
    (hb : min n (r.cap - r.len) ≤ b.length) :
    r.write (some b) n = .ok (min n (r.cap - r.len),
      r.written (b.take (min n (r.cap - r.len))) (min n (r.cap - r.len))) := by
  have hcap := i.word
  have hfits := i.fits
  have hs := i.stored
  have htail := i.tail
  unfold write
  dsimp only
  rw [clampFree_eq i hn]
  obtain ⟨k, hk⟩ : ∃ k, min n (r.cap - r.len) = k := ⟨_, rfl⟩
  rw [hk] at hword hb ⊢
  by_cases hzero : k = 0
  · have same : put r.data r.tail [] = r.data := by
      obtain htail | hz := i.tail
      · exact put_nil (by omega)
      · have : r.data = [] := List.length_eq_zero_iff.1 (hs.trans hz)
        simp [this, put, Lib.Blocks.write]
    rw [if_pos hzero, hzero, List.take_zero]
    unfold written published
    rw [same, Nat.add_zero, i.tail_stay, Nat.add_zero]
  · obtain ⟨e, hcopy, he⟩ := copyIn_spec i (by omega : 0 < k) (by omega) (hword (by omega)) hb
    rw [if_neg hzero, hcopy, ok_bind]
    unfold written published
    rw [usize_of_lt (by omega), he]

theorem write_needs (i : InRange r) (hn : n < 2 ^ 64) (hb : min n (r.cap - r.len) ≤ b.length)
    (h : r.write (some b) n = .ok (min n (r.cap - r.len), r')) :
    n + r.len < 2 ^ 64 ∧
      (0 < min n (r.cap - r.len) → r.tail + min n (r.cap - r.len) < 2 ^ 64) := by
  have hfits := i.fits
  have htail := i.tail
  have hfit := (clampFree_iff i hn).1 (write_count h).symm
  refine ⟨hfit, fun hpos => ?_⟩
  by_contra hwrap
  unfold write at h
  dsimp only at h
  rw [clampFree_eq i hfit, if_neg (Nat.ne_of_gt hpos),
    copyIn_wrap i (by omega) (by omega) (Nat.le_of_not_lt hwrap) hb] at h
  cases h

theorem commit_iff (i : InRange r) (hn : n < 2 ^ 64) :
    r.commit n = (min n (r.cap - r.len), r.published (min n (r.cap - r.len))) ↔
      n + r.len < 2 ^ 64 ∧
        (0 < min n (r.cap - r.len) → r.tail + min n (r.cap - r.len) < 2 ^ 64) := by
  have hword := i.word
  have hfits := i.fits
  have htail := i.tail
  rw [← clampFree_iff i hn]
  obtain ⟨k, hk⟩ : ∃ k, min n (r.cap - r.len) = k := ⟨_, rfl⟩
  rw [hk]
  unfold commit published
  dsimp only
  by_cases same : r.clampFree n = k
  · rw [same]
    by_cases hpos : 0 < k
    · have cursor := cursor_iff (c := r.cap) (p := r.tail) hword (by omega) hpos (by omega)
      rw [if_pos hpos]
      simp only [hpos, true_and, true_imp_iff, ← cursor]
      rw [usize_of_lt (by omega : r.len + k < 2 ^ 64)]
      constructor
      · intro h
        simpa using h
      · intro h
        simp [h]
    · have hzero : k = 0 := by omega
      simp [hzero, i.tail_stay]
  · simp only [same, false_and, iff_false]
    intro h
    split at h <;> exact same (congrArg Prod.fst h)

theorem read_needs (i : InRange r) {dst : Option (List UInt8)}
    (h : r.read (some b) n = .ok (k, dst, r')) (hpos : 0 < min n r.len) :
    r.head + min n r.len < 2 ^ 64 := by
  have hfits := i.fits
  have hhead := i.head
  by_contra hwrap
  unfold read at h
  dsimp only at h
  rw [clampUsed_eq, if_neg (Nat.ne_of_gt hpos),
    copyOut_wrap i (by omega) (by omega) (Nat.le_of_not_lt hwrap)] at h
  cases h

theorem peek_needs (i : InRange r) {dst : Option (List UInt8)}
    (h : r.peek (some b) n = .ok (k, dst)) (hpos : 0 < min n r.len) :
    r.head + min n r.len < 2 ^ 64 := by
  have hfits := i.fits
  have hhead := i.head
  by_contra hwrap
  unfold peek at h
  dsimp only at h
  rw [clampUsed_eq, if_neg (Nat.ne_of_gt hpos),
    copyOut_wrap i (by omega) (by omega) (Nat.le_of_not_lt hwrap)] at h
  cases h

theorem remove_iff (i : InRange r) :
    r.remove n = (min n r.len, r.removed (min n r.len)) ↔
      (0 < min n r.len → r.head + min n r.len < 2 ^ 64) := by
  have hword := i.word
  have hfits := i.fits
  have hhead := i.head
  refine ⟨fun h hpos => ?_, remove_spec i⟩
  have cursor := cursor_iff (c := r.cap) (p := r.head) hword (by omega) hpos (by omega)
  rw [← cursor]
  unfold remove removed at h
  dsimp only at h
  rw [clampUsed_eq, if_pos hpos] at h
  simpa using congrArg (fun answer => answer.2.head) h

/-- **Requests are limited safely.** On every ring whose cursors lie in its
storage, for every `size_t` length, a write or commit adds exactly the bytes there
is room for, and a read, peek or remove takes exactly the bytes there are, if the
sum of the length and `len_` that the first two check does not wrap, nor the
cursor behind the bytes; and only then. -/
theorem limited_iff (i : InRange r) (typed : Typed r q) : Limited r q ↔ NoWrap r q := by
  have after := served_inRange i typed
  suffices exact : r.serve q = .ok (r.served (r.amount q) q) ↔ NoWrap r q from
    ⟨fun h => exact.1 h.exact, fun h => ⟨exact.2 h, after⟩⟩
  cases q with
  | write src n =>
    constructor
    · intro h
      obtain ⟨⟨k, r₁⟩, hwrite, h⟩ := ok_of_bind h
      simp only [served, Except.ok.injEq, Prod.mk.injEq] at h
      obtain ⟨⟨rfl, -⟩, -⟩ := h
      exact write_needs i typed.1 typed.2 hwrite
    · intro h
      simp only [serve, write_eq i h.1 h.2 typed.2, ok_bind, served, amount]
  | commit n =>
    refine Iff.trans ?_ (commit_iff i typed)
    simp only [serve, served, amount, Except.ok.injEq, Prod.mk.injEq, and_true]
    exact ⟨fun h => Prod.ext h.1 h.2, fun h => ⟨congrArg Prod.fst h, congrArg Prod.snd h⟩⟩
  | read dst n =>
    constructor
    · intro h
      obtain ⟨⟨k, bytes, r₁⟩, hread, -⟩ := ok_of_bind h
      exact read_needs i hread
    · intro h
      simp only [serve, read_spec i h typed.2, ok_bind, served, amount]
  | peek dst n =>
    constructor
    · intro h
      obtain ⟨⟨k, bytes⟩, hpeek, -⟩ := ok_of_bind h
      exact peek_needs i hpeek
    · intro h
      simp only [serve, peek_spec i h typed.2, ok_bind, served, amount]
  | remove n =>
    refine Iff.trans ?_ (remove_iff i)
    simp only [serve, served, amount, Except.ok.injEq, Prod.mk.injEq, and_true]
    exact ⟨fun h => Prod.ext h.1 h.2, fun h => ⟨congrArg Prod.fst h, congrArg Prod.snd h⟩⟩

/-- A ring of four with one byte in it. -/
def one : Rbuf := ⟨[7, 0, 0, 0], 4, 0, 1, 1⟩

theorem one_inRange : InRange one :=
  ⟨rfl, by decide, by decide, Or.inl (by decide), Or.inl (by decide)⟩

theorem limited_iff_one : Limited one (.commit 9) ↔ NoWrap one (.commit 9) :=
  limited_iff one_inRange (by decide)

/-- The byte is gone, and nearly all of `size_t` is said to be committed. -/
theorem largest_commit_wraps : InRange one ∧ Typed one (.commit (2 ^ 64 - 1)) ∧
    one.commit (2 ^ 64 - 1) = (2 ^ 64 - 1, { one with tail := 0, len := 0 }) ∧
    ¬ Limited one (.commit (2 ^ 64 - 1)) := by
  refine ⟨one_inRange, by decide, by decide, fun h => ?_⟩
  have served := h.exact
  revert served
  decide

/-- A storage of up to half of `size_t` leaves the cursors far from the end of their type. -/
theorem noWrap_of_small (i : InRange r) (small : r.cap ≤ 2 ^ 63) :
    NoWrap r q ↔ match q with
      | .write _ n | .commit n => n + r.len < 2 ^ 64
      | .read .. | .peek .. | .remove _ => True := by
  have hfits := i.fits
  have hhead := i.head
  have htail := i.tail
  cases q with
  | write | commit =>
    simp only [NoWrap, amount, and_iff_left_iff_imp]
    omega
  | read | peek | remove =>
    simp only [NoWrap, amount, iff_true]
    omega

end Coter.Rbuf
