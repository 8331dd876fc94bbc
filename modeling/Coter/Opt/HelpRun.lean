import Coter.Opt.Help

/-!
# The layout of the help text

* `width_label`: what `opt_help_width` measures is what `opt_help_option` prints;
* `desc_page`: a description is printed as its words, set on lines;
* `labels_stay`: a label that meets both limits stays on the line of its description;
* `help_laid_out`: every description in one column, each of its words once and in order,
  apart from the label, and on lines that are not too long.
-/

namespace Coter.Opt

open Lib.Wrap

/-! ## The description -/

/-- One word of a description, where `pos` characters stand on the line already. -/
theorem descFrom_word {c : UInt8} {desc : Str} (hc : c ≠ newline) (col avail pos : Int) :
    helpDescFrom col avail pos (c :: desc) =
      if 0 < pos ∧ avail < pos + 1 + (word space newline (c :: desc)).length then
        newline :: (blanks col ++ (word space newline (c :: desc) ++
          helpDescFrom col avail (word space newline (c :: desc)).length
            (rest space newline (c :: desc))))
      else if 0 < pos then
        space :: (word space newline (c :: desc) ++
          helpDescFrom col avail (pos + 1 + (word space newline (c :: desc)).length)
            (rest space newline (c :: desc)))
      else
        word space newline (c :: desc) ++
          helpDescFrom col avail (pos + (word space newline (c :: desc)).length)
            (rest space newline (c :: desc)) := by
  have hw : helpWord (c :: desc) = word space newline (c :: desc) := rfl
  rw [helpDescFrom, if_neg hc, hw]
  dsimp only
  split
  · rw [if_neg (Int.lt_irrefl 0), if_neg (Int.lt_irrefl 0), Int.zero_add]
    rfl
  · split
    · rfl
    · rfl

/-- A word goes behind those of `line` or begins a line of its own, if what is left is set
behind any words. -/
theorem descFrom_word_page {c : UInt8} {desc p : Str} (hc : c ≠ newline) (col : Int) (avail : Nat)
    (lines : List (List Str)) (some : word space newline (c :: desc) ≠ [])
    (below : ∀ line : List Str, (∀ w ∈ line, w ≠ []) →
      set space line ++ helpDescFrom col avail (width line) (rest space newline (c :: desc)) =
        page space newline (blanks col) (fillFrom avail line (words space p) ++ lines))
    {line : List Str} (hline : ∀ w ∈ line, w ≠ []) :
    set space line ++ helpDescFrom col avail (width line) (c :: desc) =
      page space newline (blanks col)
        (fillFrom avail line (word space newline (c :: desc) :: words space p) ++ lines) := by
  have single : ∀ w ∈ [word space newline (c :: desc)], w ≠ [] := by simpa using some
  rw [descFrom_word hc, fillFrom]
  by_cases wraps : line ≠ [] ∧ avail < width line + 1 + (word space newline (c :: desc)).length
  · have pos := (width_pos hline).2 wraps.1
    rw [if_pos (by omega), if_pos wraps, List.cons_append,
      page_cons _ (by simp [fillFrom_ne_nil]), ← below _ single, set_singleton]
    rfl
  · rw [if_neg wraps]
    by_cases empty : line = []
    · subst empty
      rw [if_neg (by simp [width]), if_neg (by simp [width]), List.nil_append, ← below _ single,
        set_singleton, width, Nat.cast_zero, Int.zero_add]
      rfl
    · have longer := List.forall_mem_append.2 ⟨hline, single⟩
      have pos := (width_pos hline).2 empty
      have fits := not_and.1 wraps empty
      rw [if_neg (by omega), if_pos (by omega), ← below _ longer, set_append empty,
        width_append empty, List.append_assoc, Nat.cast_add, Nat.cast_add, Nat.cast_one]
      rfl

/-- Behind the words of `line`, the rest of a description is set on lines. -/
theorem descFrom_page (col : Int) (avail : Nat) {line : List Str} {desc p : Str} {ps : List Str}
    (hline : ∀ w ∈ line, w ≠ []) (begins : line = [] ∨ desc.head? ≠ some space)
    (hp : desc.splitOn newline = p :: ps) :
    set space line ++ helpDescFrom col avail (width line) desc =
      page space newline (blanks col) (fillFrom avail line (words space p) ++
        ps.flatMap fun p => fill avail (words space p)) := by
  induction desc using scan_induction space newline generalizing line p ps with
  | nil =>
    rw [List.splitOn_nil] at hp
    obtain ⟨rfl, rfl⟩ := List.cons.inj hp
    rw [helpDescFrom, words_nil, fillFrom, List.append_nil, List.flatMap_nil, List.append_nil,
      page_singleton]
  | line desc ih =>
    rw [splitOn_break] at hp
    obtain ⟨rfl, rfl⟩ := List.cons.inj hp
    obtain ⟨p, ps, hp⟩ := List.exists_cons_of_ne_nil (List.splitOn_ne_nil newline desc)
    have below := ih (List.forall_mem_nil _) (Or.inl rfl) hp
    rw [helpDescFrom, if_pos rfl, words_nil, fillFrom, hp, List.flatMap_cons, fill,
      List.singleton_append, page_cons _ (by simp [fillFrom_ne_nil]), ← below]
    rfl
  | word c desc hc ih =>
    obtain ⟨p₁, p', ps', hp₁, hrest, hwords⟩ := scan_word space newline (by decide) (c :: desc)
    obtain ⟨rfl, rfl⟩ := List.cons.inj (hp.symm.trans hp₁)
    rw [hwords]
    by_cases none : word space newline (c :: desc) = []
    · -- only a space in front of the first word of a line is no word of its own
      obtain rfl := eq_space_of_word_nil hc none
      obtain rfl : line = [] := begins.resolve_right (fun head => head rfl)
      have below := ih hline (Or.inl rfl) hrest
      rw [descFrom_word hc, if_neg (by simp [width]), if_neg (by simp [width]), none, if_pos rfl]
      exact below
    · rw [if_neg none]
      apply descFrom_word_page hc col avail _ none _ hline
      intro line hline
      exact ih hline (Or.inr (rest_head space newline (c :: desc))) hrest

/-- The columns that `opt_help_desc` fills. -/
def available (col width : Int) : Nat := (max (width - col) 10).toNat

/-- The lines of a description, for each line of its text. -/
def setLines (avail : Nat) (text : Str) : List (List (List Str)) :=
  (text.splitOn newline).map fun p => fill avail (words space p)

theorem setLines_ne_nil (avail : Nat) (text : Str) : (setLines avail text).flatten ≠ [] := by
  obtain ⟨p, ps, hp⟩ := List.exists_cons_of_ne_nil (List.splitOn_ne_nil newline text)
  simp [setLines, hp, fill, fillFrom_ne_nil]

/-- A description is printed as its words, set on lines. -/
theorem desc_page (text : Str) (col width : Int) :
    helpDesc text col width =
      page space newline (blanks col) (setLines (available col width) text).flatten ++
        [newline] := by
  obtain ⟨p, ps, hp⟩ := List.exists_cons_of_ne_nil (List.splitOn_ne_nil newline text)
  have avail : (if width - col < 10 then 10 else width - col) = (available col width : Int) := by
    unfold available
    split <;> omega
  have all := descFrom_page col (available col width) (List.forall_mem_nil _) (Or.inl rfl) hp
  unfold helpDesc
  dsimp only
  rw [avail, setLines, hp, List.map_cons, List.flatten_cons, ← List.flatMap_def]
  exact congrArg (· ++ [newline]) all

/-! ## The label -/

theorem helpOption_eq (d : Entry) (col : Int) :
    helpOption d col = helpLabel d ++ List.replicate (col - (helpLabel d).length).toNat space := rfl

theorem helpOption_zero (d : Entry) : helpOption d 0 = helpLabel d := by
  rw [helpOption_eq, show (0 - ((helpLabel d).length : Int)).toNat = 0 by omega,
    List.replicate_zero, List.append_nil]

/-- What is measured is what is printed. -/
theorem width_label {d : Entry} (named : d.hasLong ∨ d.hasShort) :
    helpWidth d = (helpOption d 0).length := by
  have option : (if d.hasLong then 8 + (d.name.length : Int) else if d.hasShort then 4 else 0) =
      (if d.hasShort ∧ d.hasLong then
        [space, space, dash, d.short, 44, space, dash, dash] ++ d.name
      else if d.hasShort then [space, space, dash, d.short]
      else [space, space, space, space, space, space, dash, dash] ++ d.name).length := by
    cases hlong : d.hasLong with
    | true =>
      cases d.hasShort <;> simp <;> omega
    | false =>
      have short : d.hasShort = true := by simpa [hlong] using named
      simp [short]
  rw [helpOption_zero]
  unfold helpWidth helpLabel
  dsimp only
  rw [option]
  cases d.argtype with
  | none => rfl
  | required =>
    simp only [List.length_append, List.length_cons]
    omega
  | optional =>
    simp only [List.length_append, List.length_cons, List.length_nil]
    omega

/-! ## The column -/

section column
variable (c : HelpConfig)

theorem measureEntry_hidden {d : Entry} (h : d.described = false) (s : Int × Int) :
    measureEntry c s d = s := by
  unfold measureEntry
  rw [h]
  rfl

theorem measureEntry_column {d : Entry} (h : d.described = true) (s : Int × Int) :
    (measureEntry c s d).1 =
      if helpWidth d + 2 ≤ c.maxLeft ∧ helpWidth d + 2 ≤ c.descMax ∧ s.1 < helpWidth d + 2 then
        helpWidth d + 2
      else s.1 := by
  unfold measureEntry
  rw [h]
  rfl

theorem measureEntry_mono (s : Int × Int) (d : Entry) : s.1 ≤ (measureEntry c s d).1 := by
  cases h : d.described with
  | false => rw [measureEntry_hidden c h]
  | true =>
    rw [measureEntry_column c h]
    split <;> omega

theorem measure_mono (defs : List Entry) (s : Int × Int) :
    s.1 ≤ (defs.foldl (measureEntry c) s).1 := by
  induction defs generalizing s with
  | nil => exact Int.le_refl _
  | cons d defs ih => exact Int.le_trans (measureEntry_mono c s d) (ih _)

/-- The label of a described entry meets both limits. -/
structure Meets (d : Entry) : Prop where
  described : d.described
  left : helpWidth d + 2 ≤ c.maxLeft
  right : helpWidth d + 2 ≤ c.descMax

theorem measured {defs : List Entry} {d : Entry} (hd : d ∈ defs) (h : Meets c d) (s : Int × Int) :
    helpWidth d + 2 ≤ (defs.foldl (measureEntry c) s).1 := by
  induction defs generalizing s with
  | nil => cases hd
  | cons e defs ih =>
    rw [List.foldl_cons]
    rcases List.mem_cons.1 hd with rfl | hd
    · have here : helpWidth d + 2 ≤ (measureEntry c s d).1 := by
        have hleft := h.left
        have hright := h.right
        rw [measureEntry_column c h.described]
        split <;> omega
      exact Int.le_trans here (measure_mono c defs _)
    · exact ih hd _

theorem two_le_column (defs : List Entry) : 2 ≤ descColumn c defs := by
  unfold descColumn
  dsimp only
  split <;> omega

/-- The column leaves `min_desc` columns to the descriptions, or half of them all. -/
theorem column_le (defs : List Entry) : descColumn c defs ≤ max 2 c.descMax := by
  unfold descColumn
  dsimp only
  split
  · omega
  · split <;> omega

/-- A label that meets both limits stays on the line of its description. -/
theorem labels_stay {defs : List Entry} {d : Entry} (hd : d ∈ defs) (h : Meets c d) (width : Int) :
    helpEntry (descColumn c defs) width d =
      helpOption d (descColumn c defs) ++ helpDesc d.text (descColumn c defs) width := by
  have measured := measured c hd h (0, 0)
  have hright := h.right
  have stays : ¬ descColumn c defs < helpWidth d + 2 := by
    unfold descColumn
    dsimp only
    split <;> split <;> split <;> omega
  unfold helpEntry
  rw [h.described, Bool.not_true, if_neg Bool.false_ne_true, if_neg stays]

end column

/-! ## The page -/

/-- What is printed for an entry: its label, what stands between label and description, and
for each line of the description the lines that it is printed on, as their words. -/
structure Block where
  label : Str
  gap : Str
  paragraphs : List (List (List Str))

/-- The text of an entry whose description stands in the column `col`. Columns are counted
from the beginning of the entry, and from the line breaks behind its label. -/
def Block.text (col : Nat) (b : Block) : Str :=
  b.label ++ b.gap ++ page space newline (List.replicate col space) b.paragraphs.flatten ++
    [newline]

/-- The entry is printed as it should be. Its label ends at least two spaces in front of the
column, or on a line of its own, and its description is set without loss, with a new line
for each of its own. -/
structure Sets (col : Nat) (d : Entry) (b : Block) : Prop where
  label : b.label = helpOption d 0
  gap : (∃ n, 2 ≤ n ∧ b.label.length + n = col ∧ b.gap = List.replicate n space) ∨
    b.gap = newline :: List.replicate col space
  words : b.paragraphs.map List.flatten = (d.text.splitOn newline).map (words space)
  lines : [] ∉ b.paragraphs

/-- The entries that have a description. -/
def described (defs : List Entry) (count : Int) : List Entry :=
  (listed defs count).filter Entry.described

/-- The label and the words of an entry have room. -/
structure Fits (col : Nat) (width : Int) (d : Entry) : Prop where
  label : (helpOption d 0).length ≤ width
  words : ∀ p ∈ d.text.splitOn newline, ∀ w ∈ words space p, (w.length : Int) ≤ width - col

/-- The block of an entry. -/
def block (col : Nat) (width : Int) (d : Entry) : Block where
  label := helpOption d 0
  gap :=
    if col < helpWidth d + 2 then newline :: List.replicate col space
    else List.replicate (col - (helpOption d 0).length) space
  paragraphs := setLines (available col width) d.text

theorem block_sets {d : Entry} (named : d.hasLong ∨ d.hasShort) (col : Nat) (width : Int) :
    Sets col d (block col width d) := by
  have size := width_label named
  constructor
  · rfl
  · unfold block
    dsimp only
    split
    · exact Or.inr rfl
    · exact Or.inl ⟨col - (helpOption d 0).length, by omega, by omega, rfl⟩
  · unfold block setLines
    dsimp only
    rw [List.map_map]
    exact List.map_congr_left fun p _ => fill_flatten _ _
  · unfold block setLines
    intro empty
    obtain ⟨p, -, none⟩ := List.mem_map.1 empty
    exact fillFrom_ne_nil _ _ _ none

theorem helpEntry_text {d : Entry} (described : d.described) (named : d.hasLong ∨ d.hasShort)
    (col : Nat) (width : Int) : helpEntry col width d = (block col width d).text col := by
  have size := width_label named
  have hblanks : blanks col = List.replicate col space := rfl
  unfold helpEntry Block.text
  rw [described, Bool.not_true, if_neg Bool.false_ne_true, desc_page, hblanks, ← List.append_assoc]
  congr 2
  unfold block
  dsimp only
  split
  · rfl
  · rw [helpOption_eq d col, helpOption_zero]
    congr 2
    omega

/-- The entries that are not described print nothing. -/
theorem flatMap_helpEntry {defs : List Entry} {col : Nat} {width : Int}
    (named : ∀ d ∈ defs.filter Entry.described, d.hasLong ∨ d.hasShort) :
    defs.flatMap (helpEntry col width) =
      (defs.filter Entry.described).flatMap fun d => (block col width d).text col := by
  induction defs with
  | nil => rfl
  | cons d defs ih =>
    rw [List.flatMap_cons]
    cases h : d.described with
    | false =>
      have nothing : helpEntry col width d = [] := by
        unfold helpEntry
        rw [h]
        rfl
      rw [List.filter_cons_of_neg (by simp [h])] at named ⊢
      rw [nothing, List.nil_append, ih named]
    | true =>
      rw [List.filter_cons_of_pos h] at named ⊢
      obtain ⟨hd, others⟩ := List.forall_mem_cons.1 named
      rw [List.flatMap_cons, helpEntry_text h hd, ih others]

theorem listed_end {defs : List Entry} (ended : defs.head?.all fun d => isEnd d.toDef)
    (count : Int) : listed defs count = [] := by
  have first : ∀ ds : List Entry, ds.head? = defs.head? ∨ ds = [] →
      (ds.takeWhile fun d => !isEnd d.toDef) = [] := by
    rintro (_ | ⟨d, ds⟩) hds
    · rfl
    · rcases hds with same | none
      · rw [← same] at ended
        exact List.takeWhile_cons_of_neg (by simpa using ended)
      · cases none
  unfold listed
  apply first
  split
  · exact Or.inl rfl
  · cases count.toNat with
    | zero => exact Or.inr rfl
    | succ n => cases defs <;> exact Or.inl rfl

theorem help_eq {out : Str} {defs : List Entry} {count : Int} {cfg : Option HelpConfig} :
    help (some out) (some defs) count cfg =
      some (out ++ (listed defs count).flatMap (helpEntry
        (descColumn (resolveConfig cfg) (listed defs count)) (resolveConfig cfg).width)) := by
  unfold help
  dsimp only
  split
  · next none =>
    have nothing : listed defs count = [] := by
      rcases none with rfl | ended
      · rfl
      · exact listed_end ended count
    rw [nothing, List.flatMap_nil, List.append_nil]
  · rfl

theorem block_narrow {d : Entry} {col : Nat} {width : Int} {behind : Str}
    (named : d.hasLong ∨ d.hasShort) (room : 10 ≤ width - col) (fits : Fits col width d)
    (hbehind : Narrow newline width.toNat behind) :
    Narrow newline width.toNat ((block col width d).text col ++ behind) := by
  have size := width_label named
  have hlabel := fits.label
  have lines : ∀ l ∈ (setLines (available col width) d.text).flatten,
      col + Lib.Wrap.width l ≤ width.toNat := by
    intro l hl
    obtain ⟨_, hset, hl⟩ := List.mem_flatten.1 hl
    obtain ⟨p, hp, rfl⟩ := List.mem_map.1 hset
    have avail : (available col width : Int) = width - col := by
      unfold available
      omega
    have short : ∀ w ∈ words space p, w.length ≤ available col width := by
      intro w hw
      have := fits.words p hp w hw
      omega
    have := fill_width short l hl
    omega
  obtain ⟨l, ls, hpage⟩ := List.exists_cons_of_ne_nil
    (setLines_ne_nil (available col width) d.text)
  rw [hpage] at lines
  obtain ⟨first, others⟩ := List.forall_mem_cons.1 lines
  unfold Block.text block
  dsimp only
  rw [hpage, List.append_assoc, List.singleton_append]
  split
  · have below : Narrow newline width.toNat (List.replicate col space ++
        page space newline (List.replicate col space) (l :: ls) ++ newline :: behind) := by
      apply page_narrow
      · rwa [List.length_replicate]
      · simpa only [List.length_replicate] using others
      · exact hbehind
    rw [List.append_assoc, List.append_assoc, List.cons_append, narrow_append, ← List.append_assoc]
    exact ⟨narrow_of_length (by omega), below⟩
  · apply page_narrow
    · rw [List.length_append, List.length_replicate]
      omega
    · simpa only [List.length_replicate] using others
    · exact hbehind

theorem blocks_narrow {defs : List Entry} {col : Nat} {width : Int}
    (named : ∀ d ∈ defs, d.hasLong ∨ d.hasShort) (room : 10 ≤ width - col)
    (fits : ∀ d ∈ defs, Fits col width d) :
    Narrow newline width.toNat (defs.flatMap fun d => (block col width d).text col) := by
  induction defs with
  | nil => exact narrow_of_length (Nat.zero_le _)
  | cons d defs ih =>
    obtain ⟨hd, hnamed⟩ := List.forall_mem_cons.1 named
    obtain ⟨hfits, hothers⟩ := List.forall_mem_cons.1 fits
    exact block_narrow hd room hfits (ih hnamed hothers)

/-- **Layout of the help.** All descriptions are printed in one column, with their words and
their lines, apart from their labels. No line is longer than the width if ten columns are
left and every label and every word has room, and labels are as long as they are measured. -/
theorem help_laid_out (out : Str) (defs : List Entry) (count : Int) (cfg : Option HelpConfig)
    (named : ∀ d ∈ described defs count, d.hasLong ∨ d.hasShort) :
    ∃ (col : Nat) (blocks : List Block),
      help (some out) (some defs) count cfg = some (out ++ blocks.flatMap (Block.text col)) ∧
      List.Forall₂ (Sets col) (described defs count) blocks ∧
      (10 ≤ (resolveConfig cfg).width - col →
        (∀ d ∈ described defs count, Fits col (resolveConfig cfg).width d) →
        ∀ line ∈ (blocks.flatMap (Block.text col)).splitOn newline,
          line.length ≤ (resolveConfig cfg).width) ∧
      ∀ d ∈ described defs count, helpWidth d = (helpOption d 0).length := by
  obtain ⟨col, hcol⟩ := Int.eq_ofNat_of_zero_le
    (Int.le_trans (by decide) (two_le_column (resolveConfig cfg) (listed defs count)))
  refine ⟨col, (described defs count).map (block col (resolveConfig cfg).width), ?_, ?_, ?_, ?_⟩
  · rw [help_eq, hcol, List.flatMap_map]
    exact congrArg (fun text => some (out ++ text)) (flatMap_helpEntry named)
  · rw [List.forall₂_map_right_iff, List.forall₂_same]
    exact fun d hd => block_sets (named d hd) col _
  · intro room fits line hline
    rw [List.flatMap_map] at hline
    have := blocks_narrow named room fits line hline
    omega
  · exact fun d hd => width_label (named d hd)

/-- A label on the line of its description, and one that is too long for it. -/
def brief : List Entry :=
  [{ longname := none, shortname := 97, argtype := .none, desc := some [120, 32, 121],
     metavar := none },
   { longname := some [98, 99], shortname := 0, argtype := .optional, desc := some [122],
     metavar := some [78] }]

theorem help_laid_out_brief : ∃ (col : Nat) (blocks : List Block),
    help (some []) (some brief) (-1) (some ⟨20, 10, 8⟩) =
        some ([] ++ blocks.flatMap (Block.text col)) ∧
      List.Forall₂ (Sets col) (described brief (-1)) blocks := by
  obtain ⟨col, blocks, printed, sets, -⟩ :=
    help_laid_out [] brief (-1) (some ⟨20, 10, 8⟩) (by decide)
  exact ⟨col, blocks, printed, sets⟩

/-- `"  -a  x y\n      --bc[=N]\n      z\n"` -/
example : help (some []) (some brief) (-1) (some ⟨20, 10, 8⟩) =
    some [32, 32, 45, 97, 32, 32, 120, 32, 121, 10,
      32, 32, 32, 32, 32, 32, 45, 45, 98, 99, 91, 61, 78, 93, 10,
      32, 32, 32, 32, 32, 32, 122, 10] := by
  decide +kernel

end Coter.Opt
