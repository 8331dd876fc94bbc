import Coter.Lib.Blocks

/-!
# Rings

A ring is a storage whose end continues at its start. A window is a run of cells
that may go around the end once.

* `window_straight`, `window_around`: a window as one or two blocks;
* `window_append`, `window_drop`: windows that meet;
* `window_put`: cells put behind a window are appended to it.
-/

namespace Lib.Ring

open Lib.Blocks

variable {β : Type}

/-- The `n` cells from `h` on. -/
def window (m : List β) (h n : Nat) : List β := (m.drop h ++ m.take h).take n

/-- `m` with the cells `b` from `t` on. -/
def put (m : List β) (t : Nat) (b : List β) : List β :=
  if t + b.length ≤ m.length then write m t b
  else write (write m t (b.take (m.length - t))) 0 (b.drop (m.length - t))

/-- The position `n` of a ring of `c` cells, less than two rounds from its start. -/
def wrap (c n : Nat) : Nat := if n < c then n else n - c

theorem wrap_cases (c n : Nat) : n < c ∧ wrap c n = n ∨ c ≤ n ∧ wrap c n = n - c := by
  unfold wrap
  split <;> omega

theorem mod_eq_wrap {c n : Nat} (h : n < 2 * c) : n % c = wrap c n := by
  unfold wrap
  split
  · rename_i hn
    exact Nat.mod_eq_of_lt hn
  · rename_i hn
    rw [Nat.mod_eq_sub_mod (by omega), Nat.mod_eq_of_lt (by omega)]

variable {m b : List β} {h n k t i : Nat}

theorem window_length (hh : h ≤ m.length) (hn : n ≤ m.length) : (window m h n).length = n := by
  simp only [window, List.length_take, List.length_append, List.length_drop]
  omega

theorem window_getElem? (hh : h ≤ m.length) (hi : i < n) (hn : n ≤ m.length) :
    (window m h n)[i]? = m[wrap m.length (h + i)]? := by
  unfold window wrap
  rw [List.getElem?_take_of_lt hi, List.getElem?_append, List.length_drop]
  by_cases hw : h + i < m.length
  · rw [if_pos (by omega), if_pos hw, List.getElem?_drop]
  · rw [if_neg (by omega), if_neg hw, List.getElem?_take_of_lt (by omega)]
    congr 1
    omega

theorem window_take (hk : k ≤ n) : (window m h n).take k = window m h k := by
  unfold window
  rw [List.take_take, Nat.min_eq_left hk]

theorem window_straight (hn : h + n ≤ m.length) : window m h n = Blocks.read m h n := by
  unfold window Blocks.read
  rw [List.take_append_of_le_length]
  simp only [List.length_drop]
  omega

theorem window_around (hh : h ≤ m.length) (hn : m.length < h + n) (hle : n ≤ m.length) :
    window m h n =
      Blocks.read m h (m.length - h) ++ Blocks.read m 0 (n - (m.length - h)) := by
  unfold window Blocks.read
  rw [List.take_append, List.length_drop, List.drop_zero]
  congr 1
  · rw [List.take_of_length_le, List.take_of_length_le] <;> simp only [List.length_drop] <;> omega
  · rw [List.take_take, Nat.min_eq_left (by omega)]

/-- A window without its first `k` cells. -/
theorem window_drop (hh : h < m.length) (hk : k ≤ n) (hn : n ≤ m.length) :
    (window m h n).drop k = window m (wrap m.length (h + k)) (n - k) := by
  have start := wrap_cases m.length (h + k)
  apply List.ext_getElem?
  intro i
  rw [List.getElem?_drop]
  by_cases hi : i < n - k
  · have direct := wrap_cases m.length (h + (k + i))
    have stepped := wrap_cases m.length (wrap m.length (h + k) + i)
    rw [window_getElem? (by omega) (by omega) hn, window_getElem? (by omega) hi (by omega)]
    congr 1
    omega
  · have long := window_length (Nat.le_of_lt hh) hn
    have short := window_length (m := m) (h := wrap m.length (h + k)) (n := n - k)
      (by omega) (by omega)
    rw [List.getElem?_eq_none (by omega), List.getElem?_eq_none (by omega)]

theorem put_nil (ht : t ≤ m.length) : put m t [] = m := by
  unfold put
  rw [if_pos (by simpa using ht), write_nil]

theorem put_length (ht : t ≤ m.length) (hb : b.length ≤ m.length) :
    (put m t b).length = m.length := by
  unfold put
  split
  · rename_i hfit
    exact write_length hfit
  · have first : t + (b.take (m.length - t)).length ≤ m.length := by
      simp only [List.length_take]
      omega
    rw [write_length, write_length first]
    simp only [write_length first, List.length_drop]
    omega

/-- Cell `i` after cells were put from `t` on: the one put there, if `i` is within
`b.length` steps from `t` around the ring. -/
theorem put_getElem? (ht : t ≤ m.length) (hb : b.length ≤ m.length) (hi : i < m.length) :
    (put m t b)[i]? =
      if t ≤ i ∧ i < t + b.length then b[i - t]?
      else if i + m.length < t + b.length then b[i + m.length - t]?
      else m[i]? := by
  unfold put
  by_cases hfit : t + b.length ≤ m.length
  · rw [if_pos hfit, write_getElem? hfit]
    split
    · rfl
    · rw [if_neg (by omega)]
  · have first : t + (b.take (m.length - t)).length ≤ m.length := by
      simp only [List.length_take]
      omega
    have second : 0 + (b.drop (m.length - t)).length ≤
        (write m t (b.take (m.length - t))).length := by
      rw [write_length first, List.length_drop]
      omega
    rw [if_neg hfit, write_getElem? second, write_getElem? first]
    simp only [List.length_drop, List.length_take, Nat.zero_le, true_and]
    by_cases hback : i < 0 + (b.length - (m.length - t))
    · rw [if_pos hback, if_neg (by omega), if_pos (by omega), List.getElem?_drop]
      congr 1
      omega
    · rw [if_neg hback]
      by_cases hfront : t ≤ i
      · rw [if_pos (by omega), if_pos (by omega), List.getElem?_take_of_lt (by omega)]
      · rw [if_neg (by omega), if_neg (by omega), if_neg (by omega)]

/-- Cells put behind a window are appended to it. -/
theorem window_put (hh : h < m.length) (hroom : n + b.length ≤ m.length) :
    window (put m (wrap m.length (h + n)) b) h (n + b.length) = window m h n ++ b := by
  have end_ := wrap_cases m.length (h + n)
  have hlen : (put m (wrap m.length (h + n)) b).length = m.length :=
    put_length (by omega) (by omega)
  have before := window_length (m := m) (Nat.le_of_lt hh) (show n ≤ m.length by omega)
  apply List.ext_getElem?
  intro i
  rw [List.getElem?_append, before]
  by_cases hi : i < n + b.length
  · have cell := wrap_cases m.length (h + i)
    rw [window_getElem? (by omega) hi (by omega), hlen,
      put_getElem? (by omega) (by omega) (by omega)]
    by_cases hin : i < n
    · rw [if_pos hin, window_getElem? (by omega) hin (by omega), if_neg (by omega),
        if_neg (by omega)]
    · rw [if_neg hin]
      by_cases hfirst : wrap m.length (h + n) ≤ wrap m.length (h + i)
      · rw [if_pos (by omega)]
        congr 1
        omega
      · rw [if_neg (by omega), if_pos (by omega)]
        congr 1
        omega
  · have after := window_length (m := put m (wrap m.length (h + n)) b) (h := h)
      (n := n + b.length) (by omega) (by omega)
    rw [List.getElem?_eq_none (by omega), if_neg (by omega), List.getElem?_eq_none (by omega)]

end Lib.Ring
