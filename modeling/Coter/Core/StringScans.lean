import Coter.Core.Machine

/-!
# Scans of strings

`ct_strncpy_s`, `ct_memrchr` and `ct_basename`. A string is memory up to its terminator, and a
scan that leaves the memory is a fault.

* `strncpy_s_copies`: what is copied, and when it is complete;
* `basename_last`: the name behind the last separator, however it is found.
-/

namespace Coter.Strings

open Lib.Blocks

/-! ## Copying -/

/-- `src[i]` -/
def char (src : List UInt8) (i : Nat) : Except Fault UInt8 :=
  match src[i]? with
  | none => .error .bounds
  | some c => .ok c

/-- `for (; i < len && src[i] != '\0'; ++i) { dest[i] = src[i]; }`, with `left` turns to go. -/
def strncpy_loop (src : List UInt8) : Nat → Nat → List UInt8 → Except Fault (Nat × List UInt8)
  | 0, i, dest => .ok (i, dest)
  | left + 1, i, dest => do
    let c ← char src i
    if c = 0 then .ok (i, dest)
    else do
      let dest ← store dest i [c]
      strncpy_loop src left (i + 1) dest

/-- `ct_strncpy_s` -/
def strncpy_s (dest : Option (List UInt8)) (dest_size : Nat) (src : Option (List UInt8))
    (count : Nat) : Except Fault (Int × Option (List UInt8)) :=
  match dest with
  | none => .ok (-1, none)
  | some dest =>
    if dest_size = 0 then .ok (-1, some dest)
    else match src with
    | none => do
      let dest ← store dest 0 [0]
      .ok (-1, some dest)
    | some src =>
      if count = 0 then do
        let dest ← store dest 0 [0]
        .ok (-1, some dest)
      else do
        let len := min (dest_size - 1) count
        let (i, dest) ← strncpy_loop src len 0 dest
        let dest ← store dest i [0]
        if i < count then do
          let c ← char src i
          if c ≠ 0 then .ok (-1, some dest) else .ok (i32 i, some dest)
        else .ok (i32 i, some dest)

/-- The string in the first `count` bytes of a memory. -/
def text (src : List UInt8) (count : Nat) : List UInt8 := (src.take count).takeWhile (· ≠ 0)

/-- The string ends within the memory, or the memory has all `count` bytes. -/
def Readable (src : List UInt8) (count : Nat) : Prop :=
  (text src count).length < count → (text src count).length < src.length

section

variable {src dest : List UInt8} {c : UInt8} {count left i : Nat}

theorem text_cons (c : UInt8) (src : List UInt8) (count : Nat) :
    text (c :: src) (count + 1) = if c = 0 then [] else c :: text src count := by
  unfold text
  rw [List.take_succ_cons, List.takeWhile_cons]
  by_cases hc : c = 0
  · simp [hc]
  · simp [hc]

theorem text_length_le (src : List UInt8) (count : Nat) : (text src count).length ≤ count :=
  ((List.takeWhile_sublist _).length_le).trans (List.length_take_le ..)

/-- The string in fewer bytes. -/
theorem text_take (src : List UInt8) (n count : Nat) :
    text src (min n count) = (text src count).take n := by
  rw [text, ← List.take_take, ← List.take_takeWhile]
  rfl

/-- A string that ends before its limit has its terminator behind it. -/
theorem char_end (h : (text src count).length < count)
    (inside : (text src count).length < src.length) :
    char src (text src count).length = .ok 0 := by
  induction src generalizing count with
  | nil => simp at inside
  | cons c src ih =>
    obtain ⟨count, rfl⟩ := Nat.exists_eq_succ_of_ne_zero (show count ≠ 0 by omega)
    rw [Nat.succ_eq_add_one, text_cons] at h inside ⊢
    by_cases hc : c = 0
    · rw [if_pos hc, hc]
      rfl
    · rw [if_neg hc, List.length_cons] at h inside ⊢
      exact ih (Nat.lt_of_succ_lt_succ h) (Nat.lt_of_succ_lt_succ inside)

/-- Before its end a string has no terminator. -/
theorem char_inside (h : i < (text src count).length) : ∃ c, char src i = .ok c ∧ c ≠ 0 := by
  have front : text src count <+: src := (List.takeWhile_prefix _).trans (List.take_prefix ..)
  refine ⟨(text src count)[i], ?_, by simpa using List.mem_takeWhile_imp (List.getElem_mem h)⟩
  rw [char, List.getElem?_eq_getElem (Nat.lt_of_lt_of_le h front.length_le), front.getElem h]

/-- The loop copies the string up to its limit. -/
theorem strncpy_loop_eq (dest : List UInt8) (room : i + left ≤ dest.length) (readable : Readable (src.drop i) left) :
    strncpy_loop src left i dest = .ok (i + (text (src.drop i) left).length,
      write dest i (text (src.drop i) left)) := by
  induction left generalizing i dest with
  | zero =>
    rw [strncpy_loop, text, List.take_zero, List.takeWhile_nil, write_nil]
    rfl
  | succ left ih =>
    rcases Nat.lt_or_ge i src.length with hi | outside
    · have cell : char src i = .ok src[i] := by rw [char, List.getElem?_eq_getElem hi]
      rw [List.drop_eq_getElem_cons hi, text_cons]
      rw [List.drop_eq_getElem_cons hi, Readable, text_cons] at readable
      rw [strncpy_loop, cell, ok_bind]
      by_cases hc : src[i] = 0
      · rw [if_pos hc, if_pos hc, write_nil]
        rfl
      · rw [if_neg hc] at readable ⊢
        rw [if_neg hc]
        have fits : i + [src[i]].length ≤ dest.length := by
          rw [List.length_singleton]
          omega
        have rest : Readable (src.drop (i + 1)) left := fun short =>
          Nat.lt_of_succ_lt_succ (readable (Nat.succ_lt_succ short))
        have size := text_length_le (src.drop (i + 1)) left
        have both := write_write (m := dest) (o := i) (a := [src[i]])
          (b := text (src.drop (i + 1)) left) (by rw [List.length_singleton]; omega)
        rw [store_ok fits, ok_bind, ih _ (by rw [write_length fits]; omega) rest, List.length_cons]
        refine congrArg Except.ok (Prod.ext ?_ both)
        dsimp only
        omega
    · rw [List.drop_eq_nil_of_le outside] at readable
      have := readable (Nat.succ_pos left)
      exact absurd this (Nat.lt_irrefl _)

/-- A buffer that a string was copied to. -/
def withText (dest string : List UInt8) : List UInt8 :=
  string ++ 0 :: dest.drop (string.length + 1)

/-- The bytes of the string and the terminator behind it. -/
theorem write_text {string : List UInt8} (room : string.length < dest.length) :
    store (write dest 0 string) string.length [0] = .ok (withText dest string) := by
  have stored := store_behind (m := dest) (o := 0) (a := string) (b := [0])
    (by rw [List.length_singleton]; omega)
  rw [Nat.zero_add] at stored
  rw [stored, write_start, withText, List.length_append, List.append_assoc]
  rfl

/-- A terminator ends the string. -/
theorem text_append {a rest : List UInt8} {n : Nat} (h : ∀ c ∈ a, c ≠ 0) (hn : a.length < n) :
    text (a ++ 0 :: rest) n = a := by
  induction a generalizing n with
  | nil =>
    obtain ⟨n, rfl⟩ := Nat.exists_eq_succ_of_ne_zero (show n ≠ 0 by omega)
    exact (text_cons 0 rest n).trans (if_pos rfl)
  | cons c a ih =>
    obtain ⟨n, rfl⟩ := Nat.exists_eq_succ_of_ne_zero (show n ≠ 0 by omega)
    rw [List.cons_append, Nat.succ_eq_add_one, text_cons, if_neg (h c List.mem_cons_self),
      ih (fun c hc => h c (List.mem_cons_of_mem _ hc)) (Nat.lt_of_succ_lt_succ hn)]

theorem text_ne (src : List UInt8) (count : Nat) : ∀ c ∈ text src count, c ≠ 0 := by
  intro c hc
  simpa using List.mem_takeWhile_imp hc

/-- What one call leaves and returns. -/
theorem strncpy_s_eq {dest_size : Nat} (room : dest_size ≤ dest.length) (some' : 0 < dest_size)
    (more : 0 < count) (readable : Readable src count) :
    strncpy_s (some dest) dest_size (some src) count =
      .ok (if (text src count).length < dest_size then i32 (text src count).length else -1,
        some (withText dest ((text src count).take (dest_size - 1)))) := by
  have start : text (src.drop 0) (min (dest_size - 1) count) =
      (text src count).take (dest_size - 1) := text_take ..
  have length : ((text src count).take (dest_size - 1)).length =
      min (dest_size - 1) (text src count).length := List.length_take
  have bound := text_length_le src count
  have readable' : Readable (src.drop 0) (min (dest_size - 1) count) := by
    intro short
    rw [start, length] at short ⊢
    exact Nat.lt_of_le_of_lt (Nat.min_le_right ..) (readable (by omega))
  have inside : 0 + min (dest_size - 1) count ≤ dest.length := by omega
  have loop := strncpy_loop_eq dest inside readable'
  rw [start, Nat.zero_add] at loop
  unfold strncpy_s
  dsimp only
  rw [if_neg (by omega), if_neg (by omega), loop, ok_bind]
  dsimp only
  rw [write_text (by omega), ok_bind, length]
  rcases Nat.lt_or_ge (text src count).length dest_size with fits | long
  · have all : min (dest_size - 1) (text src count).length = (text src count).length := by omega
    rw [if_pos fits, all]
    split
    · next short =>
      rw [char_end short (readable short)]
      rfl
    · rfl
  · have cut : min (dest_size - 1) (text src count).length = dest_size - 1 := by omega
    obtain ⟨c, cell, hc⟩ := char_inside (show dest_size - 1 < (text src count).length by omega)
    rw [if_neg (Nat.not_lt.2 long), cut, if_pos (by omega), cell, ok_bind, if_pos hc]

/-- **Copied up to the limit of the buffer.** Whenever the string can be read, the buffer has
`dest_size` bytes and neither `dest_size` nor `count` is 0, the call copies the bytes of the string
that leave room for the terminator, changes nothing behind it, and returns their number if that was
the whole string, else -1. What it leaves is a string that a second call with room for it copies
as it is. -/
theorem strncpy_s_copies (dest src : List UInt8) (dest_size count : Nat)
    (room : dest_size ≤ dest.length) (some' : 0 < dest_size) (more : 0 < count)
    (readable : Readable src count) :
    ∃ string copied : List UInt8, string = (text src count).take (dest_size - 1) ∧
      copied = string ++ 0 :: dest.drop (string.length + 1) ∧
      strncpy_s (some dest) dest_size (some src) count =
        .ok (if (text src count).length < dest_size then i32 string.length else -1, some copied) ∧
      ∀ (dest' : List UInt8) (size' count' : Nat), size' ≤ dest'.length → string.length < size' →
        string.length < count' → strncpy_s (some dest') size' (some copied) count' =
          .ok (i32 string.length, some (string ++ 0 :: dest'.drop (string.length + 1))) := by
  refine ⟨_, _, rfl, rfl, ?_, fun dest' size' count' fits size limit => ?_⟩
  · have call := strncpy_s_eq room some' more readable
    by_cases whole : (text src count).length < dest_size
    · rw [if_pos whole] at call
      rw [if_pos whole, List.take_of_length_le (by omega)]
      rwa [List.take_of_length_le (by omega)] at call
    · rw [if_neg whole] at call
      rw [if_neg whole]
      exact call
  · generalize hstring : (text src count).take (dest_size - 1) = string at size limit ⊢
    have again : text (string ++ 0 :: dest.drop (string.length + 1)) count' = string := by
      refine text_append (fun c hc => text_ne src count c ?_) limit
      rw [← hstring] at hc
      exact List.mem_of_mem_take hc
    have readable' : Readable (string ++ 0 :: dest.drop (string.length + 1)) count' := by
      intro _
      rw [again, List.length_append, List.length_cons]
      omega
    rw [strncpy_s_eq fits (by omega) (by omega) readable', again, if_pos size,
      List.take_of_length_le (by omega)]
    rfl

end

/-- Three characters for a buffer that holds two. -/
theorem strncpy_s_copies_cut : ∃ string copied : List UInt8,
    string = (text [97, 98, 99, 0] 9).take (3 - 1) ∧
      copied = string ++ 0 :: [1, 2, 3, 4].drop (string.length + 1) ∧
      strncpy_s (some [1, 2, 3, 4]) 3 (some [97, 98, 99, 0]) 9 =
        .ok (if (text [97, 98, 99, 0] 9).length < 3 then i32 string.length else -1, some copied) ∧
      ∀ (dest' : List UInt8) (size' count' : Nat), size' ≤ dest'.length → string.length < size' →
        string.length < count' → strncpy_s (some dest') size' (some copied) count' =
          .ok (i32 string.length, some (string ++ 0 :: dest'.drop (string.length + 1))) :=
  strncpy_s_copies [1, 2, 3, 4] [97, 98, 99, 0] 3 9 (by decide) (by decide) (by decide)
    (fun _ => by decide)

/-! ## The last separator -/

/-- `ct_memrchr`, where the platform has none. -/
def memrchr (mem : List UInt8) (byte : Int) : Nat → Except Fault (Option Nat)
  | 0 => .ok none
  | count + 1 => do
    let c ← char mem count
    if c = UInt8.ofInt byte then .ok (some count) else memrchr mem byte count

def isSep (win : Bool) (c : UInt8) : Bool :=
  if win then c == '/'.toUInt8 || c == '\\'.toUInt8 else c == '/'.toUInt8

/-- The loop of `ct_basename`, with the memory from `cursor` on. -/
def basename_loop (win : Bool) : List UInt8 → Nat → Nat → Except Fault Nat
  | [], _, _ => .error .bounds
  | c :: rest, cursor, result =>
    if c = 0 then .ok result
    else basename_loop win rest (cursor + 1) (if isSep win c then cursor + 1 else result)

/-- `ct_basename`: an offset into the path, or the text for `NULL`. -/
def basename (win : Bool) (path : Option (List UInt8)) : Except Fault (Option Nat) :=
  match path with
  | none => .ok none
  | some path => do
    let result ← basename_loop win path 0 0
    .ok (some result)

/-- `ct_basename_impl` of C++11, with the memory from `cursor` on. -/
def basename_impl (win : Bool) : List UInt8 → Nat → Nat → Except Fault Nat
  | [], _, _ => .error .bounds
  | c :: rest, cursor, last_sep =>
    if c = 0 then .ok last_sep
    else if isSep win c then basename_impl win rest (cursor + 1) (cursor + 1)
    else basename_impl win rest (cursor + 1) last_sep

section

variable {win : Bool} {a b rest : List UInt8} {cursor result : Nat}

/-- The two forms walk alike. -/
theorem basename_impl_eq (win : Bool) (path : List UInt8) (cursor result : Nat) :
    basename_impl win path cursor result = basename_loop win path cursor result := by
  induction path generalizing cursor result with
  | nil => rfl
  | cons c rest ih =>
    rw [basename_impl, basename_loop]
    by_cases hc : c = 0
    · rw [if_pos hc, if_pos hc]
    · rw [if_neg hc, if_neg hc, ih, ih]
      cases isSep win c <;> rfl

theorem loop_passes (win : Bool) (rest : List UInt8) (cursor result : Nat) (ha : ∀ c ∈ a, c ≠ 0) :
    ∃ result', basename_loop win (a ++ rest) cursor result =
      basename_loop win rest (cursor + a.length) result' := by
  induction a generalizing cursor result with
  | nil => exact ⟨result, rfl⟩
  | cons c a ih =>
    obtain ⟨result', walk⟩ := ih (cursor + 1) (if isSep win c then cursor + 1 else result)
      fun d hd => ha d (List.mem_cons_of_mem c hd)
    refine ⟨result', ?_⟩
    rw [List.cons_append, basename_loop, if_neg (ha c List.mem_cons_self), walk, List.length_cons,
      Nat.add_assoc, Nat.add_comm 1]

theorem loop_keeps (hb : ∀ c ∈ b, c ≠ 0 ∧ isSep win c = false) :
    basename_loop win (b ++ 0 :: rest) cursor result = .ok result := by
  induction b generalizing cursor with
  | nil => exact if_pos rfl
  | cons c b ih =>
    obtain ⟨ne, plain⟩ := hb c List.mem_cons_self
    rw [List.cons_append, basename_loop, if_neg ne, plain]
    exact ih fun d hd => hb d (List.mem_cons_of_mem c hd)

/-- A name, or a directory, its separator and a name. -/
theorem last_separator (win : Bool) (t : List UInt8) : (∀ c ∈ t, isSep win c = false) ∨
    ∃ a s b, t = a ++ s :: b ∧ isSep win s = true ∧ ∀ c ∈ b, isSep win c = false := by
  induction t with
  | nil => exact Or.inl nofun
  | cons c t ih =>
    rcases ih with plain | ⟨a, s, b, rfl, sep, plain⟩
    · cases hc : isSep win c with
      | false =>
        refine Or.inl fun d hd => ?_
        rcases List.mem_cons.1 hd with rfl | later
        · exact hc
        · exact plain d later
      | true => exact Or.inr ⟨[], c, t, rfl, hc, plain⟩
    · exact Or.inr ⟨c :: a, s, b, rfl, sep, plain⟩

/-- The search passes bytes of another value. -/
theorem memrchr_skip {byte : Int} (a rest : List UInt8) (hb : ∀ c ∈ b, c ≠ UInt8.ofInt byte) :
    memrchr (a ++ b ++ rest) byte (a.length + b.length) =
      memrchr (a ++ b ++ rest) byte a.length := by
  induction b using List.reverseRecOn generalizing rest with
  | nil => rfl
  | append_singleton b c ih =>
    have other := hb c (List.mem_append_right b List.mem_cons_self)
    have cell : char (a ++ (b ++ [c]) ++ rest) (a.length + b.length) = .ok c := by
      simp [char]
    rw [List.length_append, List.length_singleton, ← Nat.add_assoc, memrchr, cell, ok_bind,
      if_neg other]
    have shorter := ih (c :: rest) fun d hd => hb d (List.mem_append_left [c] hd)
    rwa [show a ++ b ++ c :: rest = a ++ (b ++ [c]) ++ rest by simp] at shorter

/-- **The name behind the last separator.** For every terminated path and on every platform the
loop of `ct_basename` and its recursive form find one position: no separator stands between it and
the end, one stands right before it unless it is the start, and from there the name is found again.
Where `/` is the only separator it is the byte behind the one that `ct_memrchr` finds. -/
theorem basename_last (win : Bool) (t rest : List UInt8) (ht : ∀ c ∈ t, c ≠ 0) :
    ∃ dir name : List UInt8, t = dir ++ name ∧
      basename win (some (t ++ 0 :: rest)) = .ok (some dir.length) ∧
      basename_impl win (t ++ 0 :: rest) 0 0 = .ok dir.length ∧
      (∀ c ∈ name, isSep win c = false) ∧ (∀ c ∈ dir.getLast?, isSep win c = true) ∧
      basename win (some (name ++ 0 :: rest)) = .ok (some 0) ∧
      (win = false → memrchr (t ++ 0 :: rest) '/'.toNat t.length =
        .ok (if dir = [] then none else some (dir.length - 1))) := by
  have slash : UInt8.ofInt ('/'.toNat : Int) = '/'.toUInt8 := by decide
  have other {c : UInt8} (plain : isSep false c = false) : c ≠ UInt8.ofInt ('/'.toNat : Int) := by
    rw [slash]
    exact beq_eq_false_iff_ne.1 plain
  have name_loop {b : List UInt8} (hb : ∀ c ∈ b, c ∈ t) (plain : ∀ c ∈ b, isSep win c = false)
      (cursor result : Nat) : basename_loop win (b ++ 0 :: rest) cursor result = .ok result :=
    loop_keeps fun c hc => ⟨ht c (hb c hc), plain c hc⟩
  rcases last_separator win t with plain | ⟨a, s, b, rfl, sep, plain⟩
  · have found := name_loop (fun _ hc => hc) plain 0 0
    have named : basename win (some (t ++ 0 :: rest)) = .ok (some 0) := by
      rw [basename, found]
      rfl
    refine ⟨[], t, rfl, named, (basename_impl_eq ..).trans found, plain, nofun, named, ?_⟩
    rintro rfl
    have skipped := memrchr_skip [] (0 :: rest) fun c hc => other (plain c hc)
    rw [List.nil_append, List.length_nil, Nat.zero_add] at skipped
    exact skipped
  · have members (c : UInt8) (hc : c ∈ b) : c ∈ a ++ s :: b :=
      List.mem_append_right a (List.mem_cons_of_mem s hc)
    have ne : s ≠ 0 := ht s (List.mem_append_right a List.mem_cons_self)
    have found : basename_loop win (a ++ s :: b ++ 0 :: rest) 0 0 = .ok (a ++ [s]).length := by
      obtain ⟨result', walk⟩ := loop_passes win (s :: (b ++ 0 :: rest)) 0 0
        fun c hc => ht c (List.mem_append_left _ hc)
      rw [List.append_assoc, List.cons_append, walk, basename_loop, if_neg ne, if_pos sep,
        name_loop members plain, Nat.zero_add, List.length_append, List.length_singleton]
    refine ⟨a ++ [s], b, by simp, ?_, (basename_impl_eq ..).trans found, plain,
      by simpa using sep, ?_, ?_⟩
    · rw [basename, found]
      rfl
    · rw [basename, name_loop members plain]
      rfl
    · rintro rfl
      have cell : char (a ++ [s] ++ b ++ 0 :: rest) a.length = .ok s := by simp [char]
      have same : s = UInt8.ofInt ('/'.toNat : Int) := by
        rw [slash]
        exact beq_iff_eq.1 sep
      have skipped := memrchr_skip (a ++ [s]) (0 :: rest) fun c hc => other (plain c hc)
      rw [List.length_append, List.length_singleton, memrchr, cell, ok_bind, if_pos same] at skipped
      rw [if_neg (by simp), List.length_append, List.length_append, List.length_cons,
        List.length_singleton, Nat.add_sub_cancel, ← skipped]
      congr 1
      · simp
      · omega

end

/-- `a/b` -/
theorem basename_last_ab : ∃ dir name : List UInt8, [97, 47, 98] = dir ++ name ∧
    basename false (some ([97, 47, 98] ++ 0 :: [9])) = .ok (some dir.length) ∧
    basename_impl false ([97, 47, 98] ++ 0 :: [9]) 0 0 = .ok dir.length ∧
    (∀ c ∈ name, isSep false c = false) ∧ (∀ c ∈ dir.getLast?, isSep false c = true) ∧
    basename false (some (name ++ 0 :: [9])) = .ok (some 0) ∧
    (false = false → memrchr ([97, 47, 98] ++ 0 :: [9]) '/'.toNat [97, 47, 98].length =
      .ok (if dir = [] then none else some (dir.length - 1))) :=
  basename_last false [97, 47, 98] [9] (by simp)

end Coter.Strings
