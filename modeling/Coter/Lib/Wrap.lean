import Mathlib.Data.List.TakeWhile

/-!
# Setting words on lines

A text is cut at separators. Its words are set on lines, one separator between two of them,
and a line is begun when the next word does not fit.

* `words_append`: words in front of a separator and behind it;
* `scan_word`: taking the first word off a text;
* `fill_flatten`, `fill_width`: filling lines loses no word, and no line is too long if no
  word is;
* `page_narrow`: no line of the text that is set is too long either.
-/

namespace Lib.Wrap

variable {α : Type} {space newline : α}

/-! ## Words -/

section words
variable [DecidableEq α]

/-- What lies between separators, unless it is empty. -/
def words (space : α) (s : List α) : List (List α) := (s.splitOn space).filter fun w => !w.isEmpty

@[simp] theorem words_nil : words space [] = [] := by
  simp [words, List.splitOn_nil]

theorem words_append (x y : List α) :
    words space (x ++ space :: y) = words space x ++ words space y := by
  unfold words
  rw [List.splitOn_append_cons_self, List.filter_append]

theorem words_word {w : List α} (h : space ∉ w) (hw : w ≠ []) : words space w = [w] := by
  unfold words
  rw [List.splitOn_eq_singleton h]
  simp [hw]

/-- Separators in front of a text belong to no word. -/
theorem words_dropWhile (s : List α) :
    words space (s.dropWhile fun c => c == space) = words space s := by
  induction s with
  | nil => rfl
  | cons c s ih =>
    by_cases h : c = space
    · subst h
      rw [List.dropWhile_cons_of_pos (by simp), ih]
      exact (words_append [] s).symm
    · rw [List.dropWhile_cons_of_neg (by simpa using h)]

theorem splitOn_break (s : List α) : (newline :: s).splitOn newline = [] :: s.splitOn newline := by
  rw [List.splitOn_cons_eq_if_modifyHead, if_pos (beq_self_eq_true newline)]

/-- A text that begins with what is no newline, and the line this belongs to. -/
theorem splitOn_append {x s p : List α} {ps : List (List α)} (h : newline ∉ x)
    (hs : s.splitOn newline = p :: ps) : (x ++ s).splitOn newline = (x ++ p) :: ps := by
  induction x with
  | nil => exact hs
  | cons c x ih =>
    obtain ⟨hc, hx⟩ := not_or.1 (fun either => h (List.mem_cons.2 either))
    rw [List.cons_append, List.splitOn_cons_eq_if_modifyHead, if_neg (by simpa using Ne.symm hc),
      ih hx]
    rfl

section scan
variable (space newline)

/-- What a scan of a text takes off: the first word and the separators that follow. -/
def word (s : List α) : List α := s.takeWhile fun c => c != space && c != newline

def gap (s : List α) : List α :=
  (s.drop (word space newline s).length).takeWhile fun c => c == space

/-- What is left behind them. -/
def rest (s : List α) : List α :=
  (s.drop (word space newline s).length).dropWhile fun c => c == space

end scan

section parts
variable {s w p : List α} {c : α}

theorem drop_word (s : List α) : s.drop (word space newline s).length =
    s.dropWhile fun c => c != space && c != newline := by
  have parts : word space newline s ++ s.dropWhile (fun c => c != space && c != newline) = s :=
    List.takeWhile_append_dropWhile
  calc s.drop (word space newline s).length
      = (word space newline s ++ s.dropWhile fun c => c != space && c != newline).drop
          (word space newline s).length := by rw [parts]
    _ = _ := List.drop_left

theorem scan_parts (s : List α) :
    word space newline s ++ (gap space newline s ++ rest space newline s) = s := by
  rw [gap, rest, List.takeWhile_append_dropWhile, drop_word]
  exact List.takeWhile_append_dropWhile

theorem mem_word (h : c ∈ word space newline s) : c ≠ space ∧ c ≠ newline := by
  have letter := List.mem_takeWhile_imp h
  simpa using letter

theorem mem_gap (h : c ∈ gap space newline s) : c = space := by
  have separator := List.mem_takeWhile_imp h
  exact beq_iff_eq.1 separator

theorem eq_space_of_word_nil (h : c ≠ newline) (none : word space newline (c :: s) = []) :
    c = space := by
  by_contra other
  simp [word, other, h] at none

theorem words_of_word (s : List α) : words space (word space newline s) =
    if word space newline s = [] then [] else [word space newline s] := by
  split
  · next empty => rw [empty, words_nil]
  · next some => exact words_word (fun h => (mem_word h).1 rfl) some

/-- Separators between a word and a line count once, and as none at its end. -/
theorem words_gap {gap : List α} (hgap : ∀ c ∈ gap, c = space) (ends : gap = [] → p = []) :
    words space (w ++ (gap ++ p)) = words space w ++ words space p := by
  cases gap with
  | nil => rw [ends rfl, List.nil_append, List.append_nil, words_nil, List.append_nil]
  | cons c gap =>
    obtain ⟨rfl, others⟩ := List.forall_mem_cons.1 hgap
    rw [List.cons_append, words_append, ← words_dropWhile (gap ++ p),
      List.dropWhile_append_of_pos (fun d hd => beq_iff_eq.2 (others d hd)), words_dropWhile]

end parts

section scan
variable (space newline)

/-- No separator stands in front of what is left. -/
theorem rest_head (s : List α) : (rest space newline s).head? ≠ some space := by
  intro h
  have first := List.head?_dropWhile_not (fun c => c == space)
    (s.drop (word space newline s).length)
  rw [rest] at h
  rw [h] at first
  simp at first

/-- A scan of a line that is not empty takes something off. -/
theorem rest_length {c : α} (s : List α) (h : c ≠ newline) :
    (rest space newline (c :: s)).length < (c :: s).length := by
  have parts : (word space newline (c :: s) ++ _).length = _ := congrArg List.length (scan_parts _)
  rw [List.length_append, List.length_append] at parts
  have taken : 0 < (word space newline (c :: s)).length ∨
      0 < (gap space newline (c :: s)).length := by
    by_cases same : c = space
    · subst same
      exact Or.inr (by simp [gap, word])
    · exact Or.inl (by simp [word, same, h])
  omega

/-- A word that no separator follows ends its line. -/
theorem gap_nil {s p : List α} {ps : List (List α)} (h : gap space newline s = [])
    (hp : (rest space newline s).splitOn newline = p :: ps) : p = [] := by
  have tail : rest space newline s = s.dropWhile fun c => c != space && c != newline := by
    have none := List.takeWhile_append_dropWhile (p := fun c => c == space)
      (l := s.drop (word space newline s).length)
    rw [gap] at h
    rw [h, List.nil_append, drop_word] at none
    rw [rest, drop_word, none]
  cases hr : rest space newline s with
  | nil =>
    rw [hr, List.splitOn_nil] at hp
    exact (List.cons.inj hp).1.symm
  | cons c r =>
    have stop := List.head?_dropWhile_not (fun c => c != space && c != newline) s
    have head := rest_head space newline s
    rw [← tail, hr] at stop
    rw [hr, List.head?_cons] at head
    have hc : c = newline := by
      have other : c ≠ space := fun same => head (congrArg some same)
      simpa [other] using stop
    rw [hr, hc, splitOn_break] at hp
    exact (List.cons.inj hp).1.symm

/-- The first line of what is left is what is left of the first line, and the other lines
are the same. -/
theorem scan_word (apart : space ≠ newline) (s : List α) :
    ∃ p p' ps, s.splitOn newline = p :: ps ∧ (rest space newline s).splitOn newline = p' :: ps ∧
      words space p =
        (if word space newline s = [] then [] else [word space newline s]) ++ words space p' := by
  obtain ⟨p', ps, hp⟩ := List.exists_cons_of_ne_nil
    (List.splitOn_ne_nil newline (rest space newline s))
  refine ⟨word space newline s ++ (gap space newline s ++ p'), p', ps, ?_, hp, ?_⟩
  · have inGap : newline ∉ gap space newline s := fun h => apart (mem_gap h).symm
    have inWord : newline ∉ word space newline s := fun h => (mem_word h).2 rfl
    have lines := splitOn_append inWord (splitOn_append inGap hp)
    rwa [scan_parts] at lines
  · rw [words_gap (fun c => mem_gap) (fun none => gap_nil space newline none hp), words_of_word]

/-- Induction along a scan: newlines are taken off one by one, and words with what follows
them. -/
@[elab_as_elim]
theorem scan_induction {motive : List α → Prop} (nil : motive [])
    (line : ∀ s, motive s → motive (newline :: s))
    (word : ∀ c s, c ≠ newline → motive (rest space newline (c :: s)) → motive (c :: s))
    (s : List α) : motive s := by
  induction hn : s.length using Nat.strong_induction_on generalizing s with
  | _ n ih =>
    cases s with
    | nil => exact nil
    | cons c s =>
      by_cases h : c = newline
      · subst h
        exact line s (ih s.length (by rw [← hn]; exact Nat.lt_succ_self _) s rfl)
      · exact word c s h (ih _ (hn ▸ rest_length space newline s h) _ rfl)

end scan

end words

/-! ## Lines -/

/-- The room that words take on a line. -/
def width : List (List α) → Nat
  | [] => 0
  | [w] => w.length
  | w :: v :: line => w.length + 1 + width (v :: line)

/-- The words with one separator between two of them. -/
def set (space : α) (line : List (List α)) : List α := [space].intercalate line

@[simp] theorem set_nil : set space [] = [] := rfl

@[simp] theorem set_singleton (w : List α) : set space [w] = w := List.intercalate_singleton

theorem set_length (line : List (List α)) : (set space line).length = width line := by
  unfold set
  induction line using width.induct with
  | case1 => rfl
  | case2 w => rw [List.intercalate_singleton, width]
  | case3 w v line ih =>
    rw [List.intercalate_cons_cons, List.length_append, List.length_append, ih, width]
    rfl

theorem set_append {line : List (List α)} (h : line ≠ []) (w : List α) :
    set space (line ++ [w]) = set space line ++ space :: w := by
  unfold set
  induction line using width.induct with
  | case1 => exact absurd rfl h
  | case2 v => simp [List.intercalate_cons_cons]
  | case3 v u line ih =>
    rw [List.cons_append, List.cons_append, List.intercalate_cons_cons,
      List.intercalate_cons_cons, ← List.cons_append, ih (List.cons_ne_nil u line)]
    simp only [List.append_assoc]

theorem width_append {line : List (List α)} (h : line ≠ []) (w : List α) :
    width (line ++ [w]) = width line + 1 + w.length := by
  induction line using width.induct with
  | case1 => exact absurd rfl h
  | case2 v => rfl
  | case3 v u line ih =>
    have behind := ih (List.cons_ne_nil u line)
    rw [List.cons_append] at behind
    rw [List.cons_append, List.cons_append, width, width, behind]
    omega

/-- A line is empty only if it has no words. -/
theorem width_pos {line : List (List α)} (h : ∀ w ∈ line, w ≠ []) :
    0 < width line ↔ line ≠ [] := by
  cases line using width.induct with
  | case1 => simp [width]
  | case2 w => simpa [width, List.length_pos_iff] using h w
  | case3 w v line =>
    simp only [width, ne_eq, reduceCtorEq, not_false_eq_true, iff_true]
    omega

/-! ## Filling lines -/

/-- Lines from the words, behind those already on the first line. -/
def fillFrom (avail : Nat) (line : List (List α)) : List (List α) → List (List (List α))
  | [] => [line]
  | w :: ws =>
    if line ≠ [] ∧ avail < width line + 1 + w.length then line :: fillFrom avail [w] ws
    else fillFrom avail (line ++ [w]) ws

def fill (avail : Nat) (ws : List (List α)) : List (List (List α)) := fillFrom avail [] ws

theorem fillFrom_ne_nil (avail : Nat) (line ws : List (List α)) : fillFrom avail line ws ≠ [] := by
  induction ws generalizing line with
  | nil => exact List.cons_ne_nil _ _
  | cons w ws ih =>
    unfold fillFrom
    split
    · exact List.cons_ne_nil _ _
    · exact ih _

theorem fillFrom_flatten (avail : Nat) (line ws : List (List α)) :
    (fillFrom avail line ws).flatten = line ++ ws := by
  induction ws generalizing line with
  | nil => simp [fillFrom]
  | cons w ws ih =>
    unfold fillFrom
    split
    · rw [List.flatten_cons, ih]
      rfl
    · rw [ih, List.append_assoc]
      rfl

theorem fill_flatten (avail : Nat) (ws : List (List α)) : (fill avail ws).flatten = ws :=
  fillFrom_flatten avail [] ws

theorem fillFrom_width {avail : Nat} {line ws : List (List α)} (h : width line ≤ avail)
    (hws : ∀ w ∈ ws, w.length ≤ avail) : ∀ l ∈ fillFrom avail line ws, width l ≤ avail := by
  induction ws generalizing line with
  | nil =>
    intro l hl
    obtain rfl := List.mem_singleton.1 hl
    exact h
  | cons w ws ih =>
    obtain ⟨hw, others⟩ := List.forall_mem_cons.1 hws
    unfold fillFrom
    split
    · exact List.forall_mem_cons.2 ⟨h, ih hw others⟩
    · next fits =>
      apply ih _ others
      by_cases empty : line = []
      · subst empty
        exact hw
      · rw [width_append empty]
        have := not_and.1 fits empty
        omega

/-- No line is too long if no word is. -/
theorem fill_width {avail : Nat} {ws : List (List α)} (h : ∀ w ∈ ws, w.length ≤ avail) :
    ∀ line ∈ fill avail ws, width line ≤ avail :=
  fillFrom_width (Nat.zero_le avail) h

/-! ## Pages -/

/-- Lines one below the other, each but the first behind `lead`. -/
def page (space newline : α) (lead : List α) (lines : List (List (List α))) : List α :=
  (newline :: lead).intercalate (lines.map (set space))

variable {lead : List α}

theorem page_singleton (line : List (List α)) :
    page space newline lead [line] = set space line := List.intercalate_singleton

theorem page_cons (line : List (List α)) {lines : List (List (List α))} (h : lines ≠ []) :
    page space newline lead (line :: lines) =
      set space line ++ newline :: (lead ++ page space newline lead lines) := by
  unfold page
  rw [List.map_cons, List.intercalate_cons_of_ne_nil (by simpa using h)]
  simp only [List.append_assoc, List.cons_append]

/-- Every line of the text has at most `n` characters. -/
def Narrow [DecidableEq α] (newline : α) (n : Nat) (s : List α) : Prop :=
  ∀ line ∈ s.splitOn newline, line.length ≤ n

section narrow
variable [DecidableEq α] {n : Nat}

theorem narrow_append (x y : List α) :
    Narrow newline n (x ++ newline :: y) ↔ Narrow newline n x ∧ Narrow newline n y := by
  unfold Narrow
  rw [List.splitOn_append_cons_self, List.forall_mem_append]

theorem narrow_of_length {s : List α} (h : s.length ≤ n) : Narrow newline n s := by
  induction s generalizing n with
  | nil =>
    intro line hline
    rw [List.splitOn_nil, List.mem_singleton] at hline
    exact hline ▸ Nat.zero_le n
  | cons c s ih =>
    have shorter := ih (Nat.le_refl s.length)
    rw [List.length_cons] at h
    obtain ⟨p, ps, hp⟩ := List.exists_cons_of_ne_nil (List.splitOn_ne_nil newline s)
    unfold Narrow at shorter ⊢
    rw [hp] at shorter
    obtain ⟨hfirst, others⟩ := List.forall_mem_cons.1 shorter
    rw [List.splitOn_cons_eq_if_modifyHead, hp]
    intro line hline
    split at hline
    · rcases List.mem_cons.1 hline with rfl | hline
      · exact Nat.zero_le n
      · have := shorter line hline
        omega
    · rcases List.mem_cons.1 hline with rfl | hline
      · rw [List.length_cons]
        omega
      · have := others line hline
        omega

/-- A page behind `front` whose lines have room. -/
theorem page_narrow {front behind : List α} {line : List (List α)} {lines : List (List (List α))}
    (hfront : front.length + width line ≤ n) (hlines : ∀ l ∈ lines, lead.length + width l ≤ n)
    (hbehind : Narrow newline n behind) :
    Narrow newline n (front ++ page space newline lead (line :: lines) ++ newline :: behind) := by
  have first : Narrow newline n (front ++ set space line) :=
    narrow_of_length (by rwa [List.length_append, set_length])
  induction lines generalizing front line with
  | nil =>
    rw [page_singleton, narrow_append]
    exact ⟨first, hbehind⟩
  | cons l lines ih =>
    obtain ⟨hl, others⟩ := List.forall_mem_cons.1 hlines
    have room : Narrow newline n (lead ++ set space l) :=
      narrow_of_length (by rwa [List.length_append, set_length])
    have below := ih hl others room
    rw [page_cons line (List.cons_ne_nil l lines), ← List.append_assoc,
      List.append_assoc _ _ (newline :: behind), List.cons_append, narrow_append]
    exact ⟨first, below⟩

end narrow

end Lib.Wrap
