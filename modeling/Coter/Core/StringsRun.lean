import Coter.Core.Strings

/-!
# What is copied in reverse

* `steps_spec`: bytes copied one by one, in the order of both loops of `ct_reverse_memcpy`;
* `reverse_memcpy_reversed`: the copy between ranges that do not overlap;
* `swap_loop_spec`, `reverse_in_place_reversed`: the reversal of one range;
* `reverse_memmove_reversed`: the copy between any two ranges;
* `reverses`: both in terms of the ranges.
-/

namespace Coter.Strings

open Lib.Blocks

variable {β : Type} {m m' : List β} {dst src count : Nat}

/-- `m'` is `m` with `count` bytes from `src` on reversed into the place of those from `dst`
on. -/
structure Reversed (dst src count : Nat) (m m' : List β) : Prop where
  length : m'.length = m.length
  get : ∀ j, m'[j]? = if dst ≤ j ∧ j < dst + count then m[src + (dst + count - 1 - j)]? else m[j]?

/-! ## Single bytes -/

theorem write_read_get {d s : Nat} (hd : d < m.length) (hs : s < m.length) (j : Nat) :
    (write m d (read m s 1))[j]? = if j = d then m[s]? else m[j]? := by
  have one : (read m s 1).length = 1 := read_length hs
  rw [write_getElem? (by omega), one, read_getElem?]
  by_cases here : j = d
  · subst here
    rw [if_pos (by omega), if_pos (by omega), if_pos rfl, Nat.sub_self, Nat.add_zero]
  · rw [if_neg (by omega), if_neg here]

theorem copy_ok {d s : Nat} (hd : d < m.length) (hs : s < m.length) :
    ∃ m', copy m d s = .ok m' ∧ m'.length = m.length ∧
      ∀ j, m'[j]? = if j = d then m[s]? else m[j]? := by
  have one : (read m s 1).length = 1 := read_length hs
  refine ⟨write m d (read m s 1), ?_, write_length (by omega), write_read_get hd hs⟩
  rw [copy, load_ok hs, ok_bind, store_ok (by omega)]

/-! ## Copying -/

/-- `*dst_ptr++ = *--src_ptr`, again and again. -/
def steps : Nat → List β × Nat × Nat → Except Fault (List β × Nat × Nat)
  | 0, s => .ok s
  | n + 1, s => do
    let s ← copy_step s
    steps n s

/-- Bytes copied one by one between ranges that do not overlap. -/
theorem steps_spec (hs : src + count ≤ m.length) (hd : dst + count ≤ m.length)
    (apart : src + count ≤ dst ∨ dst + count ≤ src) :
    ∃ m', steps count (m, dst, src + count) = .ok (m', dst + count, src) ∧
      Reversed dst src count m m' := by
  induction count generalizing m dst with
  | zero => exact ⟨m, rfl, rfl, fun j => by rw [if_neg (by omega)]⟩
  | succ count ih =>
    obtain ⟨m₁, copied, length, get⟩ := copy_ok (m := m) (d := dst) (s := src + count) (by omega)
      (by omega)
    obtain ⟨m', run, length', get'⟩ := ih (show src + count ≤ m₁.length by omega)
      (show dst + 1 + count ≤ m₁.length by omega) (by omega)
    refine ⟨m', ?_, length'.trans length, fun j => ?_⟩
    · rw [steps, ← Nat.add_assoc, copy_step, copied, ok_bind, ← Nat.add_assoc]
      have next : dst + count + 1 = dst + 1 + count := by omega
      rw [next]
      exact run
    · -- The byte that went first, those that came after it, and all the others.
      rw [get']
      by_cases first : j = dst
      · rw [if_neg (by omega), get, if_pos first, if_pos (by omega)]
        congr 1
        omega
      · by_cases after : dst + 1 ≤ j ∧ j < dst + 1 + count
        · rw [if_pos after, get, if_neg (by omega), if_pos (by omega)]
          congr 1
          omega
        · rw [if_neg after, get, if_neg first, if_neg (by omega)]

theorem steps_add (a b : Nat) (s : List β × Nat × Nat) :
    steps (a + b) s = steps a s >>= steps b := by
  induction a generalizing s with
  | zero => rw [Nat.zero_add, steps, ok_bind]
  | succ a ih =>
    rw [Nat.succ_add, steps, steps]
    cases copy_step s with
    | error e => rfl
    | ok s => exact ih s

/-- A word is eight bytes. -/
theorem word_loop_eq (multiple : Nat) (s : List β × Nat × Nat) :
    word_loop multiple s = steps (8 * multiple) s := by
  induction multiple generalizing s with
  | zero => rfl
  | succ multiple ih =>
    have eight : 8 * (multiple + 1) = 8 * multiple + 8 := Nat.mul_succ ..
    rw [eight, word_loop]
    simp only [steps, ih]

/-- The bytes that do not form a word are copied in the same order. -/
theorem remain_loop_eq {left i : Nat} (h : i + left ≤ count) :
    remain_loop dst src count left i m =
      steps left (m, dst + i, src + (count - i)) >>= fun s => .ok s.1 := by
  induction left generalizing i m with
  | zero => rfl
  | succ left ih =>
    have behind : src + (count - i) = src + (count - 1 - i) + 1 := by omega
    rw [remain_loop, steps, behind, copy_step]
    cases copy m (dst + i) (src + (count - 1 - i)) with
    | error e => rfl
    | ok m₁ =>
      rw [ok_bind, ok_bind, ih (by omega), show count - (i + 1) = count - 1 - i by omega]
      rfl

/-- The copy between ranges that do not overlap. -/
theorem reverse_memcpy_reversed (hs : src + count ≤ m.length) (hd : dst + count ≤ m.length)
    (apart : src + count ≤ dst ∨ dst + count ≤ src) :
    ∃ m', reverse_memcpy m (some dst) (some src) count = .ok m' ∧ Reversed dst src count m m' := by
  by_cases empty : count = 0
  · subst empty
    exact ⟨m, by rw [reverse_memcpy, if_pos (.inl rfl)], rfl, fun j => by rw [if_neg (by omega)]⟩
  obtain ⟨multiple, hm⟩ : ∃ n, n = if count < 8 then 0 else count / 8 := ⟨_, rfl⟩
  obtain ⟨remain, hr⟩ : ∃ n, n = if count < 8 then count else count % 8 := ⟨_, rfl⟩
  have parts : remain + 8 * multiple = count := by
    rw [hm, hr]
    split <;> omega
  obtain ⟨m', run, reversed⟩ := steps_spec hs hd apart
  obtain ⟨m₁, first, -⟩ := steps_spec (show src + (count - remain) + remain ≤ m.length by omega)
    (show dst + remain ≤ m.length by omega) (by omega)
  have whole : src + (count - remain) + remain = src + count := by omega
  rw [whole] at first
  rw [← parts, steps_add, parts, first, ok_bind] at run
  refine ⟨m', ?_, reversed⟩
  have words : (if multiple > 0 then
      steps (8 * multiple) (m₁, dst + remain, src + (count - remain)) >>= fun s => .ok s.1
      else .ok m₁) = .ok m' := by
    split
    · rw [run, ok_bind]
    · next none =>
      obtain rfl : multiple = 0 := by omega
      exact congrArg Except.ok (congrArg Prod.fst (Except.ok.inj run))
  rw [reverse_memcpy, if_neg (by omega)]
  simp only [← hm, ← hr, word_loop_eq]
  split
  · rw [remain_loop_eq (by omega), Nat.sub_zero, Nat.add_zero, first, ok_bind, ok_bind]
    exact words
  · next none =>
    have same : m = m₁ := by
      obtain rfl : remain = 0 := by omega
      exact congrArg Prod.fst (Except.ok.inj first)
    rw [← same] at words
    exact words

/-! ## Reversal in place -/

theorem swap_loop_spec {left i : Nat} (hd : dst + count ≤ m.length) (h : 2 * (i + left) ≤ count) :
    ∃ m', swap_loop dst count left i m = .ok m' ∧ m'.length = m.length ∧
      ∀ j, m'[j]? = if (dst + i ≤ j ∧ j < dst + i + left) ∨
          (dst + count - i - left ≤ j ∧ j < dst + count - i) then m[dst + (dst + count - 1 - j)]?
        else m[j]? := by
  induction left generalizing i m with
  | zero => exact ⟨m, rfl, rfl, fun j => by rw [if_neg (by omega)]⟩
  | succ left ih =>
    have one (o : Nat) (ho : o < m.length) : (read m o 1).length = 1 := read_length ho
    have front := one (dst + i) (by omega)
    have back := one (dst + (count - 1 - i)) (by omega)
    obtain ⟨m₁, hm₁⟩ : ∃ m₁, m₁ = write m (dst + i) (read m (dst + (count - 1 - i)) 1) := ⟨_, rfl⟩
    have length₁ : m₁.length = m.length := by rw [hm₁, write_length (by omega)]
    obtain ⟨m₂, hm₂⟩ : ∃ m₂, m₂ = write m₁ (dst + (count - 1 - i)) (read m (dst + i) 1) :=
      ⟨_, rfl⟩
    have length₂ : m₂.length = m.length := by rw [hm₂, write_length (by omega), length₁]
    have get₂ (j : Nat) : m₂[j]? = if j = dst + (count - 1 - i) then m[dst + i]?
        else if j = dst + i then m[dst + (count - 1 - i)]? else m[j]? := by
      rw [hm₂, write_getElem? (by omega), front, read_getElem?]
      by_cases last : j = dst + (count - 1 - i)
      · subst last
        rw [if_pos (by omega), if_pos (by omega), if_pos rfl, Nat.sub_self, Nat.add_zero]
      · rw [if_neg (by omega), if_neg last, hm₁, write_read_get (by omega) (by omega)]
    obtain ⟨m', run, length, get⟩ := ih (m := m₂) (i := i + 1) (by omega) (by omega)
    refine ⟨m', ?_, length.trans length₂, fun j => ?_⟩
    · rw [swap_loop, load_ok (by omega), ok_bind, load_ok (by omega), ok_bind,
        store_ok (by omega), ok_bind, ← hm₁, store_ok (by omega), ok_bind, ← hm₂]
      exact run
    · -- Both ends of this step, the places of the following ones, and all the others.
      rw [get]
      by_cases inner : (dst + (i + 1) ≤ j ∧ j < dst + (i + 1) + left) ∨
          (dst + count - (i + 1) - left ≤ j ∧ j < dst + count - (i + 1))
      · rw [if_pos inner, if_pos (by omega), get₂, if_neg (by omega), if_neg (by omega)]
      · rw [if_neg inner, get₂]
        by_cases last : j = dst + (count - 1 - i)
        · rw [if_pos last, if_pos (by omega)]
          congr 1
          omega
        · by_cases first : j = dst + i
          · rw [if_neg last, if_pos first, if_pos (by omega)]
            congr 1
            omega
          · rw [if_neg last, if_neg first, if_neg (by omega)]

/-- The reversal of one range: a byte in the middle stays. -/
theorem reverse_in_place_reversed (hd : dst + count ≤ m.length) :
    ∃ m', reverse_in_place m dst count = .ok m' ∧ Reversed dst dst count m m' := by
  obtain ⟨m', run, length, get⟩ := swap_loop_spec hd
    (show 2 * (0 + count / 2) ≤ count by omega)
  refine ⟨m', run, length, fun j => ?_⟩
  rw [get]
  by_cases inside : dst ≤ j ∧ j < dst + count
  · rw [if_pos inside]
    split
    · rfl
    · next middle =>
      congr 1
      omega
  · rw [if_neg inside, if_neg (by omega)]

/-! ## Both together -/

/-- The copy between any two ranges. -/
theorem reverse_memmove_reversed (hs : src + count ≤ m.length) (hd : dst + count ≤ m.length) :
    ∃ m', reverse_memmove m (some dst) (some src) count = .ok m' ∧
      Reversed dst src count m m' := by
  rw [reverse_memmove]
  split
  · next empty =>
    subst empty
    exact ⟨m, rfl, rfl, fun j => by rw [if_neg (by omega)]⟩
  · split
    · next before =>
      split
      · next overlap =>
        -- The end of the source goes first; the rest is reversed where it is.
        obtain ⟨m₁, copied, length₁, get₁⟩ := reverse_memcpy_reversed
          (show dst + count + (src - dst) ≤ m.length by omega)
          (show dst + (src - dst) ≤ m.length by omega) (by omega)
        obtain ⟨m', swapped, length', get'⟩ := reverse_in_place_reversed
          (show dst + (src - dst) + (count - (src - dst)) ≤ m₁.length by omega)
        refine ⟨m', ?_, length'.trans length₁, fun j => ?_⟩
        · simp only [copied, ok_bind, swapped]
        · rw [get']
          by_cases start : dst ≤ j ∧ j < dst + (src - dst)
          · rw [if_neg (by omega), get₁, if_pos start, if_pos (by omega)]
            congr 1
            omega
          · by_cases rest : dst + (src - dst) ≤ j ∧ j < dst + (src - dst) + (count - (src - dst))
            · rw [if_pos rest, get₁, if_neg (by omega), if_pos (by omega)]
              congr 1
              omega
            · rw [if_neg rest, get₁, if_neg start, if_neg (by omega)]
      · exact reverse_memcpy_reversed hs hd (by omega)
    · next notBefore =>
      split
      · next behind =>
        split
        · next overlap =>
          -- The start of the source goes last.
          obtain ⟨m₁, copied, length₁, get₁⟩ := reverse_memcpy_reversed
            (show src + (dst - src) ≤ m.length by omega)
            (show dst + (count - (dst - src)) + (dst - src) ≤ m.length by omega) (by omega)
          obtain ⟨m', swapped, length', get'⟩ := reverse_in_place_reversed
            (show dst + (count - (dst - src)) ≤ m₁.length by omega)
          refine ⟨m', ?_, length'.trans length₁, fun j => ?_⟩
          · simp only [copied, ok_bind, swapped]
          · rw [get']
            by_cases rest : dst ≤ j ∧ j < dst + (count - (dst - src))
            · rw [if_pos rest, get₁, if_neg (by omega), if_pos (by omega)]
              congr 1
              omega
            · by_cases tail : dst + (count - (dst - src)) ≤ j ∧
                  j < dst + (count - (dst - src)) + (dst - src)
              · rw [if_neg rest, get₁, if_pos tail, if_pos (by omega)]
                congr 1
                omega
              · rw [if_neg rest, get₁, if_neg tail, if_neg (by omega)]
        · exact reverse_memcpy_reversed hs hd (by omega)
      · obtain rfl : dst = src := by omega
        exact reverse_in_place_reversed hd

/-! ## The ranges -/

/-- The new bytes as the old ones in reverse, and the frame. -/
theorem Reversed.range (h : Reversed dst src count m m') (hs : src + count ≤ m.length) :
    read m' dst count = (read m src count).reverse ∧
      ∀ j, j < dst ∨ dst + count ≤ j → m'[j]? = m[j]? := by
  have length : (read m src count).length = count := read_length hs
  refine ⟨List.ext_getElem? fun i => ?_, fun j outside => by rw [h.get, if_neg (by omega)]⟩
  rw [read_getElem?]
  by_cases inside : i < count
  · rw [if_pos inside, h.get, if_pos (by omega), List.getElem?_reverse (by omega), length,
      read_getElem?, if_pos (by omega)]
    congr 1
    omega
  · rw [if_neg inside, List.getElem?_eq_none (by rw [List.length_reverse]; omega)]

/-- **In reverse.** Both functions leave the bytes of the source in reverse order in the place
of the destination and nothing else changed, `ct_reverse_memmove` for any two ranges and
`ct_reverse_memcpy` for two that do not overlap. -/
theorem reverses :
    (∀ (m : List β) (dst src count : Nat), src + count ≤ m.length → dst + count ≤ m.length →
      ∃ m', reverse_memmove m (some dst) (some src) count = .ok m' ∧ m'.length = m.length ∧
        read m' dst count = (read m src count).reverse ∧
        ∀ j, j < dst ∨ dst + count ≤ j → m'[j]? = m[j]?) ∧
    (∀ (m : List β) (dst src count : Nat), src + count ≤ m.length → dst + count ≤ m.length →
      src + count ≤ dst ∨ dst + count ≤ src →
      ∃ m', reverse_memcpy m (some dst) (some src) count = .ok m' ∧ m'.length = m.length ∧
        read m' dst count = (read m src count).reverse ∧
        ∀ j, j < dst ∨ dst + count ≤ j → m'[j]? = m[j]?) := by
  refine ⟨fun m dst src count hs hd => ?_, fun m dst src count hs hd apart => ?_⟩
  · obtain ⟨m', run, reversed⟩ := reverse_memmove_reversed hs hd
    exact ⟨m', run, reversed.length, reversed.range hs⟩
  · obtain ⟨m', run, reversed⟩ := reverse_memcpy_reversed hs hd apart
    exact ⟨m', run, reversed.length, reversed.range hs⟩

theorem reverses_overlap :
    (∃ m', reverse_memmove ([1, 2, 3, 4, 5] : List UInt8) (some 0) (some 1) 4 = .ok m' ∧ m'.length = 5 ∧
      read m' 0 4 = (read [1, 2, 3, 4, 5] 1 4).reverse ∧
      ∀ j, j < 0 ∨ 0 + 4 ≤ j → m'[j]? = [1, 2, 3, 4, 5][j]?) ∧
    (∃ m', reverse_memcpy ([1, 2, 3, 4] : List UInt8) (some 2) (some 0) 2 = .ok m' ∧ m'.length = 4 ∧
      read m' 2 2 = (read [1, 2, 3, 4] 0 2).reverse ∧
      ∀ j, j < 2 ∨ 2 + 2 ≤ j → m'[j]? = [1, 2, 3, 4][j]?) :=
  ⟨reverses.1 [1, 2, 3, 4, 5] 0 1 4 (by decide) (by decide),
    reverses.2 [1, 2, 3, 4] 2 0 2 (by decide) (by decide) (by decide)⟩

end Coter.Strings
