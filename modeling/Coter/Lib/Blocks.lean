import Mathlib

/-!
# Blocks of a flat storage

A storage is a list of cells. A block is a run of consecutive cells, and a
storage of stride `w` is read as numbered slots of `w` cells each:

* `read_write_same`, `read_write_disjoint`: what a read sees of a write;
* `slot_write`: writing one slot updates that slot and no other;
* `slot_append`: cells appended behind a slot do not change it.
-/

namespace Lib.Blocks

variable {β : Type}

/-- The `w` cells at offset `o`. -/
def read (m : List β) (o w : Nat) : List β := (m.drop o).take w

/-- `m` with the block `b` in place of the cells at offset `o`. -/
def write (m : List β) (o : Nat) (b : List β) : List β :=
  m.take o ++ b ++ m.drop (o + b.length)

/-- Slot `i` of a storage with stride `w`. -/
def slot (w : Nat) (m : List β) (i : Nat) : List β := read m (i * w) w

theorem read_length {m : List β} {o w : Nat} (h : o + w ≤ m.length) : (read m o w).length = w := by
  simp only [read, List.length_take, List.length_drop]
  omega

@[simp] theorem write_length {m b : List β} {o : Nat} (h : o + b.length ≤ m.length) :
    (write m o b).length = m.length := by
  simp only [write, List.length_append, List.length_take, List.length_drop]
  omega

theorem write_getElem? {m b : List β} {o : Nat} (h : o + b.length ≤ m.length) (i : Nat) :
    (write m o b)[i]? = if o ≤ i ∧ i < o + b.length then b[i - o]? else m[i]? := by
  simp only [write, List.append_assoc, List.getElem?_append, List.length_take, List.getElem?_take,
    List.getElem?_drop]
  have ho : min o m.length = o := by omega
  simp only [ho]
  by_cases below : i < o
  · simp [below, show ¬ o ≤ i by omega]
  · by_cases inside : i < o + b.length
    · simp [below, inside, show o ≤ i by omega, show i - o < b.length by omega]
    · simp only [below, ↓reduceIte, show ¬ i - o < b.length by omega, inside, and_false]
      congr 1
      omega

theorem read_getElem? (m : List β) (o w i : Nat) :
    (read m o w)[i]? = if i < w then m[o + i]? else none := by
  simp only [read, List.getElem?_take, List.getElem?_drop]

theorem read_write_same {m b : List β} {o : Nat} (h : o + b.length ≤ m.length) :
    read (write m o b) o b.length = b := by
  apply List.ext_getElem?
  intro i
  rw [read_getElem?, write_getElem? h]
  by_cases hi : i < b.length
  · simp [hi]
  · simp [hi]

theorem read_write_disjoint {m b : List β} {o p w : Nat} (h : o + b.length ≤ m.length)
    (apart : p + w ≤ o ∨ o + b.length ≤ p) : read (write m o b) p w = read m p w := by
  apply List.ext_getElem?
  intro i
  simp only [read_getElem?, write_getElem? h]
  by_cases hi : i < w
  · simp [hi, show ¬ (o ≤ p + i ∧ p + i < o + b.length) by omega]
  · simp [hi]

theorem write_start (m b : List β) : write m 0 b = b ++ m.drop b.length := by
  simp [write]

theorem write_nil (m : List β) (o : Nat) : write m o [] = m := by
  simp [write]

/-- What stands in front of the end of a written block. -/
theorem take_write {m b : List β} {o : Nat} (h : o ≤ m.length) :
    (write m o b).take (o + b.length) = m.take o ++ b := by
  have front : (m.take o ++ b).length = o + b.length := by
    rw [List.length_append, List.length_take_of_le h]
  rw [write, ← front, List.take_left]

theorem take_write_of_le {m b : List β} {o n : Nat} (h : o ≤ m.length) (hn : n ≤ o) :
    (write m o b).take n = m.take n := by
  rw [write, List.append_assoc, List.take_append_of_le_length (by rwa [List.length_take_of_le h]),
    List.take_take, Nat.min_eq_left hn]

theorem write_behind (a m b : List β) : write (a ++ m) a.length b = a ++ b ++ m.drop b.length := by
  simp [write]

theorem read_add (m : List β) (o v w : Nat) : read m o (v + w) = read m o v ++ read m (o + v) w := by
  rw [read, read, read, ← List.drop_drop, List.take_add]

/-- A block written behind another one. -/
theorem write_write {m a b : List β} {o : Nat} (h : o + (a.length + b.length) ≤ m.length) :
    write (write m o a) (o + a.length) b = write m o (a ++ b) := by
  have first : o + a.length ≤ m.length := by omega
  apply List.ext_getElem?
  intro i
  rw [write_getElem? (by rw [write_length first]; omega), write_getElem? first,
    write_getElem? (by rwa [List.length_append]), List.length_append, List.getElem?_append]
  by_cases below : i < o + a.length
  · have inside (h : o ≤ i) : i - o < a.length := by omega
    by_cases before : o ≤ i
    · simp [before, below, inside before, show ¬ o + a.length ≤ i by omega,
        show i < o + (a.length + b.length) by omega]
    · simp [before, show ¬ o + a.length ≤ i by omega]
  · have behind : i - (o + a.length) = i - o - a.length := by omega
    simp [below, behind, Nat.add_assoc, show o + a.length ≤ i by omega, show o ≤ i by omega,
      show ¬ i - o < a.length by omega]

theorem slot_length {m : List β} {w i : Nat} (h : (i + 1) * w ≤ m.length) :
    (slot w m i).length = w :=
  read_length (by rwa [Nat.add_mul, Nat.one_mul] at h)

theorem slots_apart {w i j : Nat} (h : i ≠ j) : i * w + w ≤ j * w ∨ j * w + w ≤ i * w := by
  rcases Nat.lt_or_gt_of_ne h with lt | gt
  · have := Nat.mul_le_mul_right w (Nat.succ_le_of_lt lt)
    rw [Nat.succ_mul] at this
    exact Or.inl this
  · have := Nat.mul_le_mul_right w (Nat.succ_le_of_lt gt)
    rw [Nat.succ_mul] at this
    exact Or.inr this

/-- Writing slot `j` is a pointwise update of the slots. -/
theorem slot_write {m b : List β} {j : Nat} (h : (j + 1) * b.length ≤ m.length) :
    slot b.length (write m (j * b.length) b) = Function.update (slot b.length m) j b := by
  have room : j * b.length + b.length ≤ m.length := by rwa [Nat.add_mul, Nat.one_mul] at h
  funext i
  by_cases hij : i = j
  · subst hij
    rw [Function.update_self]
    exact read_write_same room
  · rw [Function.update_of_ne hij]
    exact read_write_disjoint room (slots_apart hij)

theorem read_append {m e : List β} {o w : Nat} (h : o + w ≤ m.length) :
    read (m ++ e) o w = read m o w := by
  apply List.ext_getElem?
  intro i
  simp only [read_getElem?]
  by_cases hi : i < w
  · simp [hi, List.getElem?_append_left (show o + i < m.length by omega)]
  · simp [hi]

theorem read_take {m : List β} {o w n : Nat} (h : o + w ≤ n) :
    read (m.take n) o w = read m o w := by
  apply List.ext_getElem?
  intro i
  simp only [read_getElem?, List.getElem?_take]
  by_cases hi : i < w
  · simp [hi, show o + i < n by omega]
  · simp [hi]

end Lib.Blocks
