import Coter.Lib.Blocks

/-!
# The first slots of a storage as a list

* `slots_set`, `slots_insert`, `slots_erase`, `slots_fill`: writing a slot, and
  moving or filling blocks of slots, as operations on the list of slots.
-/

namespace Lib.Blocks

variable {β : Type} {w : Nat} {m b : List β}

/-- The first `n` slots. -/
def slots (w : Nat) (m : List β) (n : Nat) : List (List β) := (List.range n).map (slot w m)

@[simp] theorem slots_length (w : Nat) (m : List β) (n : Nat) : (slots w m n).length = n := by
  simp [slots]

theorem slots_getElem? (w : Nat) (m : List β) (n i : Nat) :
    (slots w m n)[i]? = if i < n then some (slot w m i) else none := by
  by_cases h : i < n
  · simp [slots, h]
  · simp [slots, h]

theorem slots_congr {m' : List β} {n : Nat} (h : ∀ i < n, slot w m' i = slot w m i) :
    slots w m' n = slots w m n := by
  apply List.map_congr_left
  intro i hi
  exact h i (List.mem_range.1 hi)

theorem slot_room {n i c : Nat} (hi : i < n) (hn : n * w ≤ c) : i * w + w ≤ c := by
  have := Nat.mul_le_mul_right w (Nat.succ_le_of_lt hi)
  rw [Nat.succ_mul] at this
  omega

theorem slots_take {n k : Nat} (h : n * w ≤ k) : slots w (m.take k) n = slots w m n := by
  apply slots_congr
  intro i hi
  exact read_take (slot_room hi h)

theorem slots_append {e : List β} {n : Nat} (h : n * w ≤ m.length) :
    slots w (m ++ e) n = slots w m n := by
  apply slots_congr
  intro i hi
  exact read_append (slot_room hi h)

theorem slots_prefix {n k : Nat} (h : k ≤ n) : slots w m k = (slots w m n).take k := by
  rw [slots, slots, ← List.map_take, List.take_range, Nat.min_eq_left h]

/-- Where a slot lies that is inside a block of slots. -/
theorem slot_read {a n i : Nat} (hi : i < n) : slot w (read m (a * w) (n * w)) i = slot w m (a + i) := by
  have room := slot_room hi (Nat.le_refl (n * w))
  apply List.ext_getElem?
  intro j
  simp only [slot, read_getElem?]
  by_cases hj : j < w
  · simp only [hj, if_true, show i * w + j < n * w by omega, Nat.add_mul, Nat.add_assoc]
  · simp [hj]

/-- A block of slots written somewhere else. -/
theorem slot_write_block {a n : Nat} (hb : b.length = n * w) (ha : (a + n) * w ≤ m.length) (i : Nat) :
    slot w (write m (a * w) b) i = if a ≤ i ∧ i < a + n then slot w b (i - a) else slot w m i := by
  have room : a * w + b.length ≤ m.length := by rwa [hb, ← Nat.add_mul]
  split
  · rename_i inside
    obtain ⟨k, rfl⟩ := Nat.exists_eq_add_of_le inside.1
    have hk : k < n := by omega
    have hroom := slot_room hk (Nat.le_refl (n * w))
    rw [Nat.add_sub_cancel_left]
    apply List.ext_getElem?
    intro j
    simp only [slot, read_getElem?, write_getElem? room]
    by_cases hj : j < w
    · have : a * w ≤ (a + k) * w + j ∧ (a + k) * w + j < a * w + b.length := by
        rw [Nat.add_mul, hb]
        omega
      rw [if_pos hj, if_pos hj, if_pos this, Nat.add_mul]
      congr 1
      omega
    · simp [hj]
  · rename_i outside
    apply read_write_disjoint room
    rcases Nat.lt_or_ge i a with below | above
    · left
      exact slot_room below (Nat.le_refl (a * w))
    · right
      rw [hb, ← Nat.add_mul]
      exact Nat.mul_le_mul_right w (by omega)

theorem slots_set {i n : Nat} (hb : b.length = w) (hi : i < n) (hn : n * w ≤ m.length) :
    slots w (write m (i * w) b) n = (slots w m n).set i b := by
  have one : b.length = 1 * w := by rw [hb, Nat.one_mul]
  have room : (i + 1) * w ≤ m.length := Nat.le_trans (Nat.mul_le_mul_right w hi) hn
  apply List.ext_getElem?
  intro j
  rw [List.getElem?_set, slots_length, slots_getElem?, slots_getElem?, slot_write_block one room]
  by_cases hij : i = j
  · subst hij
    simp only [hi, if_true, Nat.le_refl, Nat.lt_succ_self, and_self, Nat.sub_self]
    congr 1
    simp [slot, read, ← hb]
  · have off : ¬ (i ≤ j ∧ j < i + 1) := by omega
    rw [if_neg hij, if_neg off]

/-- Moving the tail up by one slot and writing the gap is an insertion. -/
theorem slots_insert {i n : Nat} (hb : b.length = w) (hi : i ≤ n) (hn : (n + 1) * w ≤ m.length) :
    slots w (write (write m ((i + 1) * w) (read m (i * w) ((n - i) * w))) (i * w) b) (n + 1) =
      (slots w m n).insertIdx i b := by
  have tail : (read m (i * w) ((n - i) * w)).length = (n - i) * w := by
    apply read_length
    rw [← Nat.add_mul]
    exact Nat.le_trans (Nat.mul_le_mul_right w (by omega)) hn
  have room : (i + 1 + (n - i)) * w ≤ m.length := by
    rwa [show i + 1 + (n - i) = n + 1 by omega]
  have length : (write m ((i + 1) * w) (read m (i * w) ((n - i) * w))).length = m.length := by
    apply write_length
    rwa [tail, ← Nat.add_mul]
  rw [slots_set hb (by omega) (by rwa [length])]
  apply List.ext_getElem?
  intro j
  rw [List.getElem?_set, List.getElem?_insertIdx, slots_length, slots_length]
  simp only [slots_getElem?, slot_write_block tail room]
  by_cases hij : i = j
  · subst hij
    simp [show i < n + 1 by omega, hi]
  · by_cases below : j < i
    · simp [hij, below, show ¬ i + 1 ≤ j by omega, show j < n by omega, show j < n + 1 by omega]
    · have above : i + 1 ≤ j := by omega
      simp only [hij, below, if_false, Ne.symm hij]
      by_cases inside : j < n + 1
      · have : j < i + 1 + (n - i) := by omega
        rw [if_pos inside, if_pos ⟨above, this⟩, slot_read (by omega), if_pos (by omega)]
        congr 2
        omega
      · rw [if_neg inside, if_neg (by omega)]

/-- Moving the tail down by one slot is an erasure. -/
theorem slots_erase {i n : Nat} (hi : i < n) (hn : n * w ≤ m.length) :
    slots w (write m (i * w) (read m ((i + 1) * w) ((n - i - 1) * w))) (n - 1) =
      (slots w m n).eraseIdx i := by
  have tail : (read m ((i + 1) * w) ((n - i - 1) * w)).length = (n - i - 1) * w := by
    apply read_length
    rwa [← Nat.add_mul, show i + 1 + (n - i - 1) = n by omega]
  have room : (i + (n - i - 1)) * w ≤ m.length :=
    Nat.le_trans (Nat.mul_le_mul_right w (by omega)) hn
  apply List.ext_getElem?
  intro j
  rw [List.getElem?_eraseIdx]
  simp only [slots_getElem?, slot_write_block tail room]
  by_cases below : j < i
  · simp [below, show ¬ i ≤ j by omega, show j < n by omega, show j < n - 1 by omega]
  · rw [if_neg below]
    by_cases inside : j < n - 1
    · have : i ≤ j ∧ j < i + (n - i - 1) := by omega
      rw [if_pos inside, if_pos this, slot_read (by omega), if_pos (by omega)]
      congr 2
      omega
    · rw [if_neg inside, if_neg (by omega)]

/-- Filling the slots behind the first `n`. -/
theorem slots_fill {n k : Nat} (hb : b.length = k * w) (hn : (n + k) * w ≤ m.length) :
    slots w (write m (n * w) b) (n + k) = slots w m n ++ slots w b k := by
  apply List.ext_getElem?
  intro j
  rw [List.getElem?_append, slots_length, slots_getElem?, slots_getElem?, slots_getElem?,
    slot_write_block hb hn]
  by_cases below : j < n
  · simp [below, show ¬ n ≤ j by omega, show j < n + k by omega]
  · simp only [below, if_false, Nat.not_lt.1 below, true_and]
    by_cases inside : j < n + k
    · simp [inside, show j - n < k by omega]
    · simp [inside, show ¬ j - n < k by omega]

end Lib.Blocks
