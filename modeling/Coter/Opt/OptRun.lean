import Coter.Opt.Opt

/-!
# The option parser reads from left to right

* `reference`: a parser that reads the arguments once, in their order;
* `At`: where the in-place parser stands in the arguments;
* `next_short`, `next_long`: one call on an option does one step of the reference;
* `options_spec`: a loop over `ct_opt_next` yields the results of the reference;
* `opt_parses`: the whole parse, and what any client of the two calls observes.
-/

namespace Coter.Opt

/-! ## The reference parser -/

inductive Token
  | dashes
  | operand
  | long (option : Str)
  | cluster (letters : Str)

def token : Str → Token
  | a :: b :: rest =>
    if a = dash then
      if b = dash then if rest = [] then .dashes else .long rest
      else .cluster (b :: rest)
    else .operand
  | _ => .operand

/-- What an option takes: one letter of its cluster, the rest of its token, or the
next token as well. -/
inductive Taken
  | letter
  | token
  | both

section

variable (defs : List Def)

def shortDef (c : UInt8) : Option Def :=
  if 33 ≤ ofChar c ∧ ofChar c < 127 then (entries defs).find? (fun d => d.shortname == ofChar c)
  else none

def longDef (name : Str) : Option Def := (entries defs).find? (fun d => d.longname == some name)

/-- The short option `c` in front of the letters `cs` and the argument `next`. -/
def refLetter (c : UInt8) (cs : Str) (next : Option Str) : Result × Taken :=
  match shortDef defs c with
  | none => (⟨.invalid, none, none⟩, .token)
  | some d =>
    match d.argtype, cs, next with
    | .none, [], _ => (⟨.none, some (ofChar c), none⟩, .token)
    | .none, _ :: _, _ => (⟨.none, some (ofChar c), none⟩, .letter)
    | .optional, [], _ => (⟨.none, some (ofChar c), none⟩, .token)
    | .optional, _ :: _, _ | .required, _ :: _, _ => (⟨.none, some (ofChar c), some cs⟩, .token)
    | .required, [], some next => (⟨.none, some (ofChar c), some next⟩, .both)
    | .required, [], none => (⟨.missing, some (ofChar c), none⟩, .token)

/-- The letters of a cluster. The flag tells whether the next token is taken. -/
def refCluster (next : Option Str) : Str → List Result × Bool
  | [] => ([], false)
  | c :: cs =>
    match refLetter defs c cs next with
    | (r, .letter) => (r :: (refCluster next cs).1, (refCluster next cs).2)
    | (r, .token) => ([r], false)
    | (r, .both) => ([r], true)

/-- `--name` or `--name=value` in front of the argument `next`. -/
def refLong (option : Str) (next : Option Str) : Result × Bool :=
  match longDef defs (option.takeWhile (· ≠ equals)) with
  | none => (⟨.invalid, none, none⟩, false)
  | some d =>
    match d.argtype, option.dropWhile (· ≠ equals), next with
    | .none, [], _ | .optional, [], _ => (⟨.none, some d.shortname, none⟩, false)
    | .none, _ :: _, _ => (⟨.toomany, some d.shortname, none⟩, false)
    | .optional, _ :: value, _ | .required, _ :: value, _ =>
      (⟨.none, some d.shortname, some value⟩, false)
    | .required, [], some next => (⟨.none, some d.shortname, some next⟩, true)
    | .required, [], none => (⟨.missing, some d.shortname, none⟩, false)

structure Parse where
  results : List Result
  operands : List Str
  deriving DecidableEq, Repr

/-- Reads the arguments from left to right. The flag tells whether the first one is
the argument of an option before it. -/
def reference (permute : Bool) : Bool → List Str → Parse
  | _, [] => ⟨[], []⟩
  | true, _ :: rest => reference permute false rest
  | false, a :: rest =>
    match token a with
    | .dashes => ⟨[], rest⟩
    | .operand =>
      if permute then
        let p := reference permute false rest
        ⟨p.results, a :: p.operands⟩
      else ⟨[], a :: rest⟩
    | .long option =>
      let (r, both) := refLong defs option rest.head?
      let p := reference permute both rest
      ⟨r :: p.results, p.operands⟩
    | .cluster letters =>
      let (rs, both) := refCluster defs rest.head? letters
      let p := reference permute both rest
      ⟨rs ++ p.results, p.operands⟩

end

/-! ## Names -/

/-- No two descriptors share a printable short name or a long name. -/
structure Distinct (defs : List Def) : Prop where
  short : (entries defs).Pairwise fun d d' =>
    33 ≤ d.shortname → d.shortname < 127 → d.shortname ≠ d'.shortname
  long : (entries defs).Pairwise fun d d' => d.longname.isSome → d.longname ≠ d'.longname

variable {defs : List Def}

/-- The last match is the first one. -/
theorem foldl_shortname {ds : List Def} {x : Int} (hlow : 33 ≤ x) (hhigh : x < 127)
    (h : ds.Pairwise fun d d' => 33 ≤ d.shortname → d.shortname < 127 → d.shortname ≠ d'.shortname)
    (type : Option ArgType) :
    ds.foldl (fun type d => if d.shortname = x then some d.argtype else type) type =
      ((ds.find? fun d => d.shortname == x).map Def.argtype).or type := by
  induction ds generalizing type with
  | nil => rfl
  | cons d ds ih =>
    obtain ⟨hd, hds⟩ := List.pairwise_cons.1 h
    rw [List.foldl_cons, ih hds]
    by_cases here : d.shortname = x
    · have later : ds.find? (fun d => d.shortname == x) = none := by
        rw [List.find?_eq_none]
        intro d' hd'
        have := hd d' hd' (by omega) (by omega)
        simp only [beq_iff_eq]
        omega
      simp [here, later]
    · simp [here]

theorem shortType_eq (h : Distinct defs) (c : UInt8) :
    shortType defs c = (shortDef defs c).map Def.argtype := by
  unfold shortType shortDef
  split
  · rename_i printable
    rw [foldl_shortname printable.1 printable.2 h.short, Option.or_none]
  · rfl

/-- A long name matches what stands in front of the first `=`. -/
theorem matchFrom_eq (a n : Str) : matchFrom a n = (n == a.takeWhile (· ≠ equals)) := by
  induction a generalizing n with
  | nil => cases n <;> simp [matchFrom]
  | cons c a ih =>
    cases n with
    | nil =>
      by_cases hc : c = equals
      · simp [matchFrom, hc]
      · simp [matchFrom, hc]
    | cons d n =>
      by_cases hc : c = equals
      · simp [matchFrom, hc]
      · by_cases hd : c = d
        · simp [matchFrom, hd ▸ hc, hd, ih]
        · simp [matchFrom, hc, hd, Ne.symm hd]

theorem find_optMatch (option : Str) :
    (entries defs).find? (fun d => optMatch d.longname option) =
      longDef defs (option.takeWhile (· ≠ equals)) := by
  unfold longDef
  congr 1
  funext d
  cases hname : d.longname with
  | none => rfl
  | some n => simp [optMatch, matchFrom_eq]

theorem behindEquals_eq (s : Str) : behindEquals s = (s.dropWhile (· ≠ equals)).tail? := by
  induction s with
  | nil => rfl
  | cons c s ih =>
    by_cases hc : c = equals
    · simp [behindEquals, hc]
    · simp [behindEquals, hc, ih]

/-! ## Tokens -/

variable {a option letters : Str}

/-- What the tests of the scan say of a token. -/
def Reads (a : Str) : Token → Prop
  | .dashes => isDashdash a = true
  | .operand => isDashdash a = false ∧ isShort a = false ∧ isLong a = false
  | .long option => isDashdash a = false ∧ isShort a = false ∧ isLong a = true ∧ a.drop 2 = option
  | .cluster letters => isDashdash a = false ∧ isShort a = true ∧ a.drop 1 = letters ∧
      letters ≠ []

theorem token_reads (a : Str) : Reads a (token a) := by
  cases a with
  | nil => exact ⟨rfl, rfl, rfl⟩
  | cons x a =>
    cases a with
    | nil => exact ⟨rfl, rfl, rfl⟩
    | cons y rest =>
      by_cases hx : x = dash
      · by_cases hy : y = dash
        · cases rest with
          | nil => simp [token, hx, hy, Reads, isDashdash]
          | cons z rest => simp [token, hx, hy, Reads, isDashdash, isShort, isLong]
        · have notDashes : isDashdash (x :: y :: rest) = false := by
            cases rest with
            | nil => simp [isDashdash, hy]
            | cons z rest => rfl
          simp [token, hx, hy, Reads, hx ▸ notDashes, isShort]
      · have notDashes : isDashdash (x :: y :: rest) = false := by
          cases rest with
          | nil => simp [isDashdash, hx]
          | cons z rest => rfl
        have notLong : isLong (x :: y :: rest) = false := by
          cases rest with
          | nil => rfl
          | cons z rest => simp [isLong, hx]
        simp [token, hx, Reads, notDashes, isShort, notLong]

/-! ## Moving a block -/

section

variable {α : Type}

theorem slide_spec (front skipped : List α) (x y : α) (behind : List α) :
    (slide (front ++ skipped ++ y :: behind) front.length (front.length + skipped.length)).set
      front.length x = front ++ x :: skipped ++ behind := by
  induction skipped using List.reverseRecOn generalizing y behind with
  | nil =>
    have stays : slide (front ++ y :: behind) front.length front.length = front ++ y :: behind := by
      cases front with
      | nil => rfl
      | cons _ _ => simp [slide]
    simp [stays]
  | append_singleton skipped z ih =>
    have source : (front ++ (skipped ++ [z]) ++ y :: behind)[front.length + skipped.length]? =
        some z := by simp
    have copied : (front ++ (skipped ++ [z]) ++ y :: behind).set (front.length + skipped.length + 1) z =
        front ++ skipped ++ z :: z :: behind := by
      simp [Nat.add_assoc]
    rw [List.length_append, List.length_singleton, ← Nat.add_assoc, slide, if_pos (by omega), source]
    dsimp only
    rw [copied, ih]
    simp

/-- The block `taken` is moved in front of the block `skipped`. -/
theorem optPermute_spec (front skipped taken behind : List α) :
    optPermute (front ++ skipped ++ (taken ++ behind)) (front.length + skipped.length) front.length
      taken.length = front ++ taken ++ skipped ++ behind := by
  induction taken generalizing front with
  | nil => simp [optPermute]
  | cons x taken ih =>
    have source : (front ++ skipped ++ (x :: taken ++ behind))[front.length + skipped.length]? =
        some x := by simp
    have moved := slide_spec front skipped x x (taken ++ behind)
    have rest := ih (front ++ [x])
    rw [List.length_cons, optPermute, source]
    dsimp only
    rw [List.cons_append, moved]
    simpa [Nat.add_right_comm] using rest

end

/-! ## Where the parser stands -/

/-- The tokens in `consumed` are done with, the ones in `skipped` are operands that
later calls skip again, and a cluster at the front of `rest` may be partly read. -/
structure At (permute : Bool) (s : Opt) (consumed skipped rest : List Str) : Prop where
  mode : s.permute = permute
  argv : s.argv = consumed ++ skipped ++ rest
  optind : s.optind = consumed.length
  operands : ∀ a ∈ skipped, token a = .operand
  posix : permute = false → skipped = []
  cut : s.subind = 0 ∨ ∃ a behind letters, rest = a :: behind ∧ token a = .cluster letters ∧
    s.subind < letters.length

variable {permute : Bool} {s t : Opt} {consumed skipped taken rest : List Str}

theorem At.tail (h : At permute s consumed skipped rest) : s.argv.drop s.optind = skipped ++ rest := by
  rw [h.argv, h.optind, List.append_assoc, List.drop_left]

theorem At.argv_getElem? (h : At permute s consumed skipped rest) (i : Nat) :
    s.argv[consumed.length + skipped.length + i]? = rest[i]? := by
  rw [h.argv, ← List.length_append, List.getElem?_append_right (by omega)]
  congr 1
  omega

theorem At.uncut (h : At permute s consumed skipped rest) (hrest : ∀ a behind letters, rest = a :: behind →
    token a ≠ .cluster letters) : s.subind = 0 := by
  obtain hzero | ⟨a, behind, letters, hr, ha, -⟩ := h.cut
  · exact hzero
  · exact absurd ha (hrest a behind letters hr)

theorem At.whole (h : At permute s consumed skipped (a :: rest))
    (ha : ∀ letters, token a ≠ .cluster letters) : s.subind = 0 := by
  apply h.uncut
  intro b behind letters hb
  obtain ⟨rfl, -⟩ := List.cons.inj hb
  exact ha letters

/-- An operand is skipped. -/
theorem At.skip (h : At permute s consumed skipped (a :: rest)) (ha : token a = .operand)
    (hpermute : permute = true) : At permute s consumed (skipped ++ [a]) rest where
  mode := h.mode
  argv := by
    rw [h.argv]
    simp
  optind := h.optind
  operands := by
    intro b hb
    obtain hb | rfl := List.mem_append.1 hb |>.imp_right List.mem_singleton.1
    · exact h.operands b hb
    · exact ha
  posix hposix := by
    rw [hpermute] at hposix
    cases hposix
  cut := by
    left
    exact h.whole (by simp [ha])

/-- The tokens in front of `rest` are done with and moved in front of the operands. -/
theorem settle_at (taken : List Str) (h : At permute s consumed skipped (taken ++ rest)) (hargv : t.argv = s.argv)
    (hpermute : t.permute = s.permute)
    (hoptind : t.optind = consumed.length + skipped.length + taken.length)
    (cut : t.subind = 0 ∨ ∃ a behind letters, rest = a :: behind ∧ token a = .cluster letters ∧
      t.subind < letters.length) :
    At permute (t.settle (consumed.length + skipped.length) s.optind) (consumed ++ taken) skipped rest where
  mode := hpermute.trans h.mode
  argv := by
    have moved := optPermute_spec consumed skipped taken rest
    unfold settle
    dsimp only
    rw [hargv, hoptind, h.optind, Nat.add_sub_cancel_left]
    split
    · rw [h.argv, moved]
    · have none : skipped = [] := List.length_eq_zero_iff.1 (by omega)
      rw [h.argv, none]
      simp
  optind := by
    unfold settle
    dsimp only
    rw [hoptind, h.optind, List.length_append]
    omega
  operands := h.operands
  posix := h.posix
  cut := cut

/-- The loop of `ct_opt_next` reaches the front of `rest`. -/
theorem nextFrom_operands {i : Nat} (hoperands : ∀ a ∈ skipped, token a = .operand)
    (hposix : s.permute = false → skipped = []) :
    s.nextFrom defs i (skipped ++ rest) = s.nextFrom defs (i + skipped.length) rest := by
  induction skipped generalizing i with
  | nil => rfl
  | cons a skipped ih =>
    have hpermute : s.permute = true := by
      cases hp : s.permute with
      | true => rfl
      | false => cases hposix hp
    have reads := token_reads a
    rw [hoperands a List.mem_cons_self] at reads
    obtain ⟨hdash, hshort, hlong⟩ := reads
    have behind := ih (i := i + 1) (fun b hb => hoperands b (List.mem_cons_of_mem a hb))
      (fun hp => by rw [hpermute] at hp; cases hp)
    rw [List.cons_append, nextFrom, hdash, hshort, hlong, hpermute, List.length_cons]
    simpa [Nat.add_assoc, Nat.add_comm 1] using behind

theorem At.next_eq (h : At permute s consumed skipped rest) :
    s.next defs = s.nextFrom defs (consumed.length + skipped.length) rest := by
  rw [next, h.tail, nextFrom_operands h.operands (h.mode ▸ h.posix), h.optind]

/-! ## One option -/

/-- How far a parser of one option goes from `u` to `v`. -/
def Advances (u v : Opt) (cs : Str) : Taken → Prop
  | .letter => v.optind = u.optind ∧ v.subind = u.subind + 1 ∧ cs ≠ []
  | .token => v.optind = u.optind + 1 ∧ v.subind = 0
  | .both => v.optind = u.optind + 2 ∧ v.subind = 0 ∧ u.argv[u.optind + 1]? ≠ none

theorem parseShort_spec (distinct : Distinct defs) {u : Opt} {c : UInt8} {cs : Str}
    (hopt : u.argv[u.optind]? = some a) (ha : token a = .cluster letters)
    (hc : letters.drop u.subind = c :: cs) :
    ∃ v, optParseShort defs u = ((refLetter defs c cs u.argv[u.optind + 1]?).1.error,
        (refLetter defs c cs u.argv[u.optind + 1]?).1.id, v) ∧
      v.optarg = (refLetter defs c cs u.argv[u.optind + 1]?).1.optarg ∧
      v.argv = u.argv ∧ v.permute = u.permute ∧
      Advances u v cs (refLetter defs c cs u.argv[u.optind + 1]?).2 := by
  have reads := token_reads a
  rw [ha] at reads
  obtain ⟨hdash, hshort, hletters, -⟩ := reads
  have here : a.drop (u.subind + 1) = c :: cs := by
    rw [Nat.add_comm, ← List.drop_drop, hletters, hc]
  have hafter : ({ u with optopt := 0, optarg := none } : Opt).argv[u.optind]? = some a := hopt
  unfold optParseShort
  dsimp only
  rw [hafter]
  dsimp only
  rw [hdash, hshort, here, shortType_eq distinct]
  dsimp only [List.headD_cons, List.tail_cons]
  unfold refLetter
  cases hd : shortDef defs c with
  | none => exact ⟨_, rfl, rfl, rfl, rfl, rfl, rfl⟩
  | some d =>
    cases htype : d.argtype with
    | none =>
      cases cs with
      | nil => simp [htype, Advances]
      | cons c' cs => simp [htype, Advances]
    | required =>
      cases cs with
      | nil =>
        cases hnext : u.argv[u.optind + 1]? with
        | none => simp [htype, Advances]
        | some b => simp [htype, Advances, hnext]
      | cons c' cs => simp [htype, Advances]
    | optional =>
      cases cs with
      | nil => simp [htype, Advances]
      | cons c' cs => simp [htype, Advances]

theorem parseLong_spec (defs : List Def) {u : Opt} (hopt : u.argv[u.optind]? = some a)
    (ha : token a = .long option) (hsubind : u.subind = 0) :
    ∃ v, optParseLong defs u = ((refLong defs option u.argv[u.optind + 1]?).1.error,
        (refLong defs option u.argv[u.optind + 1]?).1.id, v) ∧
      v.optarg = (refLong defs option u.argv[u.optind + 1]?).1.optarg ∧
      v.argv = u.argv ∧ v.permute = u.permute ∧
      Advances u v [] (if (refLong defs option u.argv[u.optind + 1]?).2 then .both else .token) := by
  have reads := token_reads a
  rw [ha] at reads
  obtain ⟨-, -, -, hoption⟩ := reads
  unfold optParseLong
  dsimp only
  rw [hopt, Option.getD_some, hoption, find_optMatch, behindEquals_eq]
  unfold refLong
  cases hd : longDef defs (option.takeWhile (· ≠ equals)) with
  | none => simp [Advances, hsubind]
  | some d =>
    cases hvalue : option.dropWhile (· ≠ equals) with
    | nil =>
      cases htype : d.argtype with
      | none => simp [htype, Advances, hsubind]
      | optional => simp [htype, Advances, hsubind]
      | required =>
        cases hnext : u.argv[u.optind + 1]? with
        | none => simp [htype, Advances, hsubind]
        | some b => simp [htype, Advances, hsubind, hnext]
    | cons e value =>
      cases htype : d.argtype with
      | none => simp [htype, Advances, hsubind]
      | optional => simp [htype, Advances, hsubind]
      | required => simp [htype, Advances, hsubind]

/-- Where a call on the option at the front of `a :: rest` leaves the parser. -/
def Lands (permute : Bool) (t : Opt) (consumed skipped : List Str) (a : Str) (rest : List Str) (subind : Nat) :
    Taken → Prop
  | .letter => At permute t consumed skipped (a :: rest) ∧ t.subind = subind + 1
  | .token => At permute t (consumed ++ [a]) skipped rest ∧ t.subind = 0
  | .both => ∃ b behind, rest = b :: behind ∧ At permute t (consumed ++ [a, b]) skipped behind ∧
      t.subind = 0

theorem lands_of_advances (h : At permute s consumed skipped (a :: rest)) {v : Opt} {cs : Str}
    (hargv : v.argv = s.argv) (hpermute : v.permute = s.permute) {taken : Taken}
    (hletter : taken = .letter → ∃ letters, token a = .cluster letters ∧ s.subind + 1 < letters.length)
    (adv : Advances { s with optind := consumed.length + skipped.length } v cs taken) :
    Lands permute (v.settle (consumed.length + skipped.length) s.optind) consumed skipped a rest s.subind
      taken := by
  cases taken with
  | letter =>
    obtain ⟨hoptind, hsubind, -⟩ := adv
    obtain ⟨letters, ha, hcut⟩ := hletter rfl
    have cut : v.subind < letters.length := by
      rw [hsubind]
      exact hcut
    have lands := settle_at [] h hargv hpermute hoptind
      (Or.inr ⟨a, rest, letters, rfl, ha, cut⟩)
    rw [List.append_nil] at lands
    exact ⟨lands, hsubind⟩
  | token =>
    obtain ⟨hoptind, hsubind⟩ := adv
    exact ⟨settle_at [a] h hargv hpermute hoptind (Or.inl hsubind), hsubind⟩
  | both =>
    obtain ⟨hoptind, hsubind, hnext⟩ := adv
    cases rest with
    | nil => exact absurd (h.argv_getElem? 1) hnext
    | cons b behind =>
      exact ⟨b, behind, rfl, settle_at [a, b] h hargv hpermute hoptind (Or.inl hsubind),
        hsubind⟩

theorem next_short (distinct : Distinct defs) (h : At permute s consumed skipped (a :: rest))
    (ha : token a = .cluster letters) {c : UInt8} {cs : Str}
    (hc : letters.drop s.subind = c :: cs) :
    ∃ t, s.next defs = ((refLetter defs c cs rest.head?).1.error,
        (refLetter defs c cs rest.head?).1.id, t) ∧
      t.optarg = (refLetter defs c cs rest.head?).1.optarg ∧
      Lands permute t consumed skipped a rest s.subind (refLetter defs c cs rest.head?).2 := by
  have reads := token_reads a
  rw [ha] at reads
  obtain ⟨hdash, hshort, -, -⟩ := reads
  have here := h.argv_getElem? 0
  have next := h.argv_getElem? 1
  rw [List.getElem?_cons_succ, ← List.head?_eq_getElem?] at next
  obtain ⟨v, hv, hoptarg, hargv, hpermute, adv⟩ := parseShort_spec distinct
    (u := { s with optind := consumed.length + skipped.length }) here ha hc
  dsimp only at hv hoptarg hargv hpermute adv
  rw [next] at hv hoptarg adv
  refine ⟨v.settle (consumed.length + skipped.length) s.optind, ?_, hoptarg, ?_⟩
  · rw [h.next_eq, nextFrom, hdash, hshort]
    simp [hv]
  · apply lands_of_advances h hargv hpermute _ adv
    intro hletter
    rw [hletter] at adv
    obtain ⟨-, -, more⟩ := adv
    have hlength := congrArg List.length hc
    have hmore := List.length_pos_iff.2 more
    rw [List.length_drop, List.length_cons] at hlength
    exact ⟨letters, ha, by omega⟩

theorem next_long (defs : List Def) (h : At permute s consumed skipped (a :: rest))
    (ha : token a = .long option) :
    ∃ t, s.next defs = ((refLong defs option rest.head?).1.error,
        (refLong defs option rest.head?).1.id, t) ∧
      t.optarg = (refLong defs option rest.head?).1.optarg ∧
      Lands permute t consumed skipped a rest 0
        (if (refLong defs option rest.head?).2 then .both else .token) := by
  have reads := token_reads a
  rw [ha] at reads
  obtain ⟨hdash, hshort, hlong, -⟩ := reads
  have uncut : s.subind = 0 := h.whole (by simp [ha])
  have here := h.argv_getElem? 0
  have next := h.argv_getElem? 1
  rw [List.getElem?_cons_succ, ← List.head?_eq_getElem?] at next
  obtain ⟨v, hv, hoptarg, hargv, hpermute, adv⟩ := parseLong_spec defs
    (u := { s with optind := consumed.length + skipped.length }) here ha uncut
  dsimp only at hv hoptarg hargv hpermute adv
  rw [next] at hv hoptarg adv
  refine ⟨v.settle (consumed.length + skipped.length) s.optind, ?_, hoptarg, ?_⟩
  · rw [h.next_eq, nextFrom, hdash, hshort, hlong]
    simp [hv]
  · rw [← uncut]
    apply lands_of_advances h hargv hpermute _ adv
    intro hletter
    split at hletter <;> cases hletter

theorem next_end (h : At permute s consumed skipped []) : s.next defs = (.done, none, s) := by
  rw [h.next_eq, nextFrom]

theorem next_dashes (defs : List Def) (h : At permute s consumed skipped (a :: rest))
    (ha : token a = .dashes) :
    ∃ t, s.next defs = (.done, none, t) ∧ At permute t (consumed ++ [a]) skipped rest ∧
      t.subind = 0 := by
  have hdash : isDashdash a = true := by
    have reads := token_reads a
    rwa [ha] at reads
  have uncut : s.subind = 0 := h.whole (by simp [ha])
  have lands := settle_at [a]
    (t := { s with optind := consumed.length + skipped.length + 1 }) h rfl rfl rfl (Or.inl uncut)
  refine ⟨_, ?_, lands, uncut⟩
  rw [h.next_eq, nextFrom, if_pos hdash]
  simp [settle]

theorem next_posix (h : At permute s consumed skipped (a :: rest)) (ha : token a = .operand)
    (hposix : permute = false) : s.next defs = (.done, none, s) := by
  have reads := token_reads a
  rw [ha] at reads
  obtain ⟨hdash, hshort, hlong⟩ := reads
  have here : s.optind = consumed.length + skipped.length := by
    rw [h.optind, h.posix hposix, List.length_nil, Nat.add_zero]
  rw [h.next_eq, nextFrom, hdash, hshort, hlong, if_neg Bool.false_ne_true,
    if_pos (show (!false && !false) = true from rfl), if_pos (by rw [h.mode, hposix]; rfl), ← here]

/-! ## The loops of a client -/

/-- What the reference makes of the arguments, the first of which may be a cluster
with `subind` letters read. -/
def todo (defs : List Def) (permute : Bool) (subind : Nat) (rest : List Str) : Parse :=
  match rest with
  | [] => ⟨[], []⟩
  | a :: rest =>
    match token a with
    | .cluster letters =>
      let (rs, both) := refCluster defs rest.head? (letters.drop subind)
      let p := reference defs permute both rest
      ⟨rs ++ p.results, p.operands⟩
    | _ => reference defs permute false (a :: rest)

theorem todo_zero (permute : Bool) (rest : List Str) :
    todo defs permute 0 rest = reference defs permute false rest := by
  cases rest with
  | nil => rfl
  | cons a rest =>
    unfold todo
    cases ha : token a with
    | cluster letters => simp [reference, ha]
    | dashes | operand | long option => simp [ha]

/-- The letters and tokens in front of the parser. -/
def size (args : List Str) : Nat := (args.map fun a => a.length + 1).sum

theorem size_cons (a : Str) (args : List Str) : size (a :: args) = a.length + 1 + size args := by
  rw [size, List.map_cons, List.sum_cons, size]

theorem size_append (as bs : List Str) : size (as ++ bs) = size as + size bs := by
  rw [size, List.map_append, List.sum_append, size, size]

theorem options_found {fuel : Nat} {r : Error} {id : Option Int} (h : s.next defs = (r, id, t))
    (hfound : r ≠ .done) : options defs (fuel + 1) s =
      (options defs fuel t).map fun (rs, u) => (⟨r, id, t.optarg⟩ :: rs, u) := by
  rw [options, h]
  cases r with
  | done => exact absurd rfl hfound
  | none | invalid | missing | toomany => rfl

theorem options_done {fuel : Nat} {id : Option Int} (h : s.next defs = (.done, id, t)) :
    options defs (fuel + 1) s = some ([], t) := by
  rw [options, h]

/-- The loop ends with the operands in front of the parser. -/
def Yields (defs : List Def) (permute : Bool) (fuel : Nat) (s : Opt) (p : Parse) : Prop :=
  ∃ t consumed, options defs fuel s = some (p.results, t) ∧ At permute t consumed [] p.operands ∧
    t.subind = 0

theorem yields_found {fuel : Nat} {r : Result} {p : Parse}
    (h : s.next defs = (r.error, r.id, t)) (hoptarg : t.optarg = r.optarg) (hfound : r.error ≠ .done)
    (rest : Yields defs permute fuel t p) :
    Yields defs permute (fuel + 1) s ⟨r :: p.results, p.operands⟩ := by
  obtain ⟨u, consumed, hu, stands⟩ := rest
  refine ⟨u, consumed, ?_, stands⟩
  rw [options_found h hfound, hu, hoptarg]
  rfl

theorem refLetter_found (defs : List Def) (c : UInt8) (cs : Str) (next : Option Str) :
    (refLetter defs c cs next).1.error ≠ .done := by
  unfold refLetter
  split
  · decide
  · split <;> simp

theorem refLong_found (option : Str) (next : Option Str) :
    (refLong defs option next).1.error ≠ .done := by
  unfold refLong
  split
  · decide
  · split <;> simp

theorem At.subind_le (h : At permute s consumed skipped rest) : s.subind ≤ size rest := by
  obtain hzero | ⟨a, behind, letters, rfl, ha, hcut⟩ := h.cut
  · omega
  · have reads := token_reads a
    rw [ha] at reads
    obtain ⟨-, -, hletters, -⟩ := reads
    have hlength := congrArg List.length hletters
    rw [List.length_drop] at hlength
    rw [size_cons]
    omega

/-- The skipped operands, seen as what comes next. -/
theorem At.unskip (h : At permute s consumed skipped rest) (uncut : s.subind = 0) :
    At permute s consumed [] (skipped ++ rest) where
  mode := h.mode
  argv := by
    rw [h.argv]
    simp
  optind := h.optind
  operands := by simp
  posix _ := rfl
  cut := Or.inl uncut

/-- The letters that are left of a cluster at the front. -/
theorem At.unread (h : At permute s consumed skipped (a :: rest)) (ha : token a = .cluster letters) :
    ∃ c cs, letters.drop s.subind = c :: cs ∧ letters.drop (s.subind + 1) = cs := by
  have hcut : s.subind < letters.length := by
    obtain hzero | ⟨b, behind, letters', hb, hb', hcut⟩ := h.cut
    · have reads := token_reads a
      rw [ha] at reads
      have := List.length_pos_iff.2 reads.2.2.2
      omega
    · obtain ⟨rfl, -⟩ := List.cons.inj hb
      obtain rfl : letters = letters' := by simpa [ha] using hb'
      exact hcut
  exact ⟨_, _, List.drop_eq_getElem_cons hcut, rfl⟩

/-- A loop with enough turns left yields what the reference makes of the rest. -/
def Parses (defs : List Def) (permute : Bool) (fuel : Nat) : Prop :=
  ∀ s consumed skipped rest, At permute s consumed skipped rest → size rest < fuel + s.subind →
    Yields defs permute fuel s ⟨(todo defs permute s.subind rest).results,
      skipped ++ (todo defs permute s.subind rest).operands⟩

/-- Behind an option that took its token, and the next one if `both` says so. -/
theorem lands_yields {fuel subind : Nat} (both : Bool) (parses : Parses defs permute fuel)
    (lands : Lands permute t consumed skipped a rest subind (if both then .both else .token))
    (hsize : size rest < fuel) :
    Yields defs permute fuel t ⟨(reference defs permute both rest).results,
      skipped ++ (reference defs permute both rest).operands⟩ := by
  cases both with
  | false =>
    obtain ⟨stands, uncut⟩ := lands
    have rest := parses t _ skipped rest stands (by omega)
    rwa [uncut, todo_zero] at rest
  | true =>
    obtain ⟨b, behind, rfl, stands, uncut⟩ := lands
    rw [size_cons] at hsize
    have rest := parses t _ skipped behind stands (by omega)
    rwa [uncut, todo_zero] at rest

theorem cluster_yields (distinct : Distinct defs) {fuel : Nat} (parses : Parses defs permute fuel)
    (h : At permute s consumed skipped (a :: rest)) (ha : token a = .cluster letters)
    (hsize : size (a :: rest) < fuel + 1 + s.subind) :
    Yields defs permute (fuel + 1) s ⟨(todo defs permute s.subind (a :: rest)).results,
      skipped ++ (todo defs permute s.subind (a :: rest)).operands⟩ := by
  obtain ⟨c, cs, hc, hcs⟩ := h.unread ha
  obtain ⟨t, hnext, hoptarg, lands⟩ := next_short distinct h ha hc
  have found := refLetter_found defs c cs rest.head?
  have before : s.subind < a.length + 1 := by
    have reads := token_reads a
    rw [ha] at reads
    have hlength := congrArg List.length hc
    have hall := congrArg List.length reads.2.2.1
    rw [List.length_drop] at hlength hall
    rw [List.length_cons] at hlength
    omega
  rw [size_cons] at hsize
  simp only [todo, ha, hc, refCluster]
  cases hletter : refLetter defs c cs rest.head? with
  | mk r taken =>
    rw [hletter] at hnext hoptarg lands found
    cases taken with
    | letter =>
      obtain ⟨stands, hsubind⟩ := lands
      have rest := parses t consumed skipped (a :: rest) stands (by rw [size_cons]; omega)
      rw [hsubind] at rest
      simp only [todo, ha, hcs] at rest
      exact yields_found hnext hoptarg found rest
    | token => exact yields_found hnext hoptarg found (lands_yields false parses lands (by omega))
    | both => exact yields_found hnext hoptarg found (lands_yields true parses lands (by omega))

theorem options_spec (distinct : Distinct defs) (fuel : Nat) : Parses defs permute fuel := by
  induction fuel with
  | zero =>
    intro s consumed skipped rest h hsize
    have := h.subind_le
    omega
  | succ fuel ih =>
    intro s consumed skipped rest h hsize
    induction rest generalizing skipped with
    | nil =>
      have uncut := h.uncut (by simp)
      exact ⟨s, consumed, options_done (next_end h), h.unskip uncut, uncut⟩
    | cons a rest ihrest =>
      cases ha : token a with
      | dashes =>
        obtain ⟨t, hnext, stands, uncut⟩ := next_dashes defs h ha
        simp only [todo, ha, reference]
        exact ⟨t, _, options_done hnext, stands.unskip uncut, uncut⟩
      | operand =>
        have uncut : s.subind = 0 := h.whole (by simp [ha])
        cases permute with
        | false =>
          have none := h.posix rfl
          subst none
          simp only [todo, ha, reference]
          exact ⟨s, consumed, options_done (next_posix h ha rfl), h, uncut⟩
        | true =>
          rw [size_cons] at hsize
          have rest := ihrest _ (h.skip ha rfl) (by omega)
          rw [uncut, todo_zero] at rest
          simp only [todo, ha, reference, if_true]
          simpa using rest
      | long option =>
        obtain ⟨t, hnext, hoptarg, lands⟩ := next_long defs h ha
        have uncut : s.subind = 0 := h.whole (by simp [ha])
        rw [size_cons, uncut] at hsize
        have rest := yields_found hnext hoptarg (refLong_found option _)
          (lands_yields _ ih lands (by omega))
        simp only [todo, ha, reference]
        exact rest
      | cluster letters => exact cluster_yields distinct ih h ha hsize

theorem reference_operands_length (defs : List Def) (permute both : Bool) (rest : List Str) :
    (reference defs permute both rest).operands.length ≤ rest.length := by
  induction rest generalizing both with
  | nil => cases both <;> exact Nat.le_refl 0
  | cons a rest ih =>
    cases both with
    | true => exact Nat.le_succ_of_le (ih false)
    | false =>
      cases ha : token a with
      | dashes => simp [reference, ha]
      | operand =>
        cases permute with
        | true => simpa [reference, ha] using ih false
        | false => simp [reference, ha]
      | long option => simpa [reference, ha] using Nat.le_succ_of_le (ih _)
      | cluster letters => simpa [reference, ha] using Nat.le_succ_of_le (ih _)

theorem arg_spec (h : At permute s consumed [] (a :: rest)) (uncut : s.subind = 0) :
    ∃ t, s.arg = (some a, t) ∧ At permute t (consumed ++ [a]) [] rest ∧ t.subind = 0 := by
  have here : s.argv[s.optind]? = some a := by
    have := h.argv_getElem? 0
    rwa [← h.optind] at this
  refine ⟨{ s with optind := s.optind + 1 }, ?_, ?_, uncut⟩
  · simp [arg, uncut, here]
  · constructor
    · exact h.mode
    · rw [h.argv]
      simp
    · simp [h.optind]
    · exact h.operands
    · exact h.posix
    · exact Or.inl uncut

theorem arg_end (h : At permute s consumed [] []) : s.arg = (none, s) := by
  have here : s.argv[s.optind]? = none := by
    have := h.argv_getElem? 0
    rwa [← h.optind] at this
  simp [arg, here]

theorem operands_spec (fuel : Nat) (h : At permute s consumed [] rest) (uncut : s.subind = 0)
    (hfuel : rest.length < fuel) :
    ∃ t, operands fuel s = some (rest, t) := by
  induction rest generalizing s consumed fuel with
  | nil =>
    obtain ⟨fuel, rfl⟩ : ∃ n, fuel = n + 1 := ⟨fuel - 1, by simp at hfuel; omega⟩
    exact ⟨s, by rw [operands, arg_end h]⟩
  | cons a rest ih =>
    rw [List.length_cons] at hfuel
    obtain ⟨fuel, rfl⟩ : ∃ n, fuel = n + 1 := ⟨fuel - 1, by omega⟩
    obtain ⟨t, harg, stands, uncut⟩ := arg_spec h uncut
    obtain ⟨u, hu⟩ := ih fuel stands uncut (Nat.lt_of_succ_lt_succ hfuel)
    refine ⟨u, ?_⟩
    rw [operands, harg]
    dsimp only
    rw [hu, Option.map_some]

/-! ## Any client -/

inductive Call
  | next
  | arg
  deriving DecidableEq, Repr

inductive Answer
  | opt (r : Result)
  | arg (a : Option Str)
  deriving DecidableEq, Repr

section

variable (defs : List Def)

def call (s : Opt) : Call → Answer × Opt
  | .next =>
    let (r, id, t) := s.next defs
    (.opt ⟨r, id, t.optarg⟩, t)
  | .arg =>
    let (a, t) := s.arg
    (.arg a, t)

/-- Calls in any order, and what they answer. -/
def client (s : Opt) : List Call → List Answer × Opt
  | [] => ([], s)
  | c :: calls =>
    let (a, t) := call defs s c
    let (as, u) := client t calls
    (a :: as, u)

/-- `ct_opt_next` did not report `CT_OPT_ERROR_DONE`. -/
def found : Answer → Bool
  | .opt r => r.error ≠ .done
  | .arg _ => false

end

/-- What is left to be read. -/
def work (s : Opt) : Nat := size (s.argv.drop s.optind) - s.subind

theorem At.work_eq (h : At permute s consumed skipped rest) :
    work s = size skipped + size rest - s.subind := by
  rw [work, h.tail, size_append]

/-- A call leads to a place in the same arguments, and reads something unless the
options are over. -/
def Goes (permute : Bool) (s : Opt) (a : Answer) (t : Opt) : Prop :=
  (∃ consumed skipped rest, At permute t consumed skipped rest) ∧ t.argv.Perm s.argv ∧
    work t + (if found a then 1 else 0) ≤ work s

theorem lands_goes (h : At permute s consumed skipped (a :: rest)) {r : Result} {taken : Taken}
    (lands : Lands permute t consumed skipped a rest s.subind taken) : Goes permute s (.opt r) t := by
  have hle := h.subind_le
  have hcut : s.subind ≤ a.length := by
    obtain hzero | ⟨b, behind, letters, hb, hb', hcut⟩ := h.cut
    · omega
    · obtain ⟨rfl, -⟩ := List.cons.inj hb
      have reads := token_reads a
      rw [hb'] at reads
      have hlength := congrArg List.length reads.2.2.1
      rw [List.length_drop] at hlength
      omega
  have before := h.work_eq
  rw [size_cons] at hle before
  have most : (if found (.opt r) then 1 else 0) ≤ 1 := by split <;> omega
  cases taken with
  | letter =>
    obtain ⟨stands, hsubind⟩ := lands
    have after := stands.work_eq
    rw [size_cons] at after
    refine ⟨⟨_, _, _, stands⟩, ?_, by omega⟩
    rw [stands.argv, h.argv]
  | token =>
    obtain ⟨stands, hsubind⟩ := lands
    have after := stands.work_eq
    refine ⟨⟨_, _, _, stands⟩, ?_, by omega⟩
    rw [stands.argv, h.argv, List.perm_iff_count]
    intro x
    simp only [List.count_append, List.count_cons, List.count_nil]
    omega
  | both =>
    obtain ⟨b, behind, rfl, stands, hsubind⟩ := lands
    have after := stands.work_eq
    rw [size_cons] at before
    refine ⟨⟨_, _, _, stands⟩, ?_, by omega⟩
    rw [stands.argv, h.argv, List.perm_iff_count]
    intro x
    simp only [List.count_append, List.count_cons, List.count_nil]
    omega

theorem goes_done (stands : At permute t consumed skipped rest) (hargv : t.argv.Perm s.argv)
    (hwork : work t ≤ work s) (id : Option Int) (optarg : Option Str) :
    Goes permute s (.opt ⟨.done, id, optarg⟩) t :=
  ⟨⟨_, _, _, stands⟩, hargv, hwork⟩

theorem next_goes (distinct : Distinct defs) (h : At permute s consumed skipped rest) :
    Goes permute s (call defs s .next).1 (call defs s .next).2 := by
  induction rest generalizing skipped with
  | nil =>
    rw [call, next_end h]
    exact goes_done h (List.Perm.refl _) (Nat.le_refl _) none s.optarg
  | cons a rest ih =>
    cases ha : token a with
    | dashes =>
      obtain ⟨t, hnext, stands, uncut⟩ := next_dashes defs h ha
      have before := h.work_eq
      have after := stands.work_eq
      rw [size_cons, h.whole (by simp [ha])] at before
      rw [call, hnext]
      apply goes_done stands
      · rw [stands.argv, h.argv, List.perm_iff_count]
        intro x
        simp only [List.count_append, List.count_cons, List.count_nil]
        omega
      · omega
    | operand =>
      cases permute with
      | false =>
        rw [call, next_posix h ha rfl]
        exact goes_done h (List.Perm.refl _) (Nat.le_refl _) none s.optarg
      | true => exact ih (h.skip ha rfl)
    | long option =>
      obtain ⟨t, hnext, -, lands⟩ := next_long defs h ha
      rw [call, hnext]
      rw [← h.whole (by simp [ha])] at lands
      exact lands_goes h lands
    | cluster letters =>
      obtain ⟨c, cs, hc, -⟩ := h.unread ha
      obtain ⟨t, hnext, -, lands⟩ := next_short distinct h ha hc
      rw [call, hnext]
      exact lands_goes h lands

theorem arg_goes (h : At permute s consumed skipped rest) :
    Goes permute s (call defs s .arg).1 (call defs s .arg).2 := by
  have same : Goes permute s (.arg none) s := ⟨⟨_, _, _, h⟩, List.Perm.refl _, Nat.le_refl _⟩
  by_cases uncut : s.subind = 0
  · have front := h.unskip uncut
    cases hfront : skipped ++ rest with
    | nil =>
      rw [hfront] at front
      rw [call, arg_end front]
      exact same
    | cons a behind =>
      rw [hfront] at front
      obtain ⟨t, harg, stands, uncut'⟩ := arg_spec front uncut
      have before := front.work_eq
      have after := stands.work_eq
      rw [size_cons] at before
      rw [call, harg]
      refine ⟨⟨_, _, _, stands⟩, ?_, ?_⟩
      · rw [stands.argv, front.argv]
        simp
      · simp only [found, Bool.false_eq_true, if_false]
        omega
  · have none : s.arg = (none, s) := if_pos uncut
    rw [call, none]
    exact same

theorem client_spec (distinct : Distinct defs) (calls : List Call)
    (h : At permute s consumed skipped rest) :
    (client defs s calls).2.argv.Perm s.argv ∧
      work (client defs s calls).2 + (client defs s calls).1.countP found ≤ work s := by
  induction calls generalizing s consumed skipped rest with
  | nil => exact ⟨List.Perm.refl _, Nat.le_refl _⟩
  | cons c calls ih =>
    have goes : Goes permute s (call defs s c).1 (call defs s c).2 := by
      cases c with
      | next => exact next_goes distinct h
      | arg => exact arg_goes h
    obtain ⟨⟨_, _, _, stands⟩, hargv, hwork⟩ := goes
    obtain ⟨hrest, hcount⟩ := ih stands
    refine ⟨hrest.trans hargv, ?_⟩
    simp only [client, List.countP_cons]
    omega

/-- The parser as a client sets it up. -/
def start (argv : List Str) (permute : Bool) : Opt := { init argv with permute }

theorem start_at (argv : List Str) (permute : Bool) :
    At permute (start argv permute) (argv.take 1) [] argv.tail where
  mode := rfl
  argv := by
    cases argv <;> simp [start, init]
  optind := by
    cases argv <;> simp [start, init]
  operands := by simp
  posix _ := rfl
  cut := Or.inl rfl

theorem length_le_size (args : List Str) : args.length ≤ size args := by
  induction args with
  | nil => exact Nat.le_refl 0
  | cons a args ih =>
    rw [size_cons, List.length_cons]
    omega

/-- **The options are read from left to right.** A loop over `ct_opt_next` until it
reports `CT_OPT_ERROR_DONE`, and then one over `ct_opt_arg`, yield the results and the
operands of the reference parser on the original arguments. For any order of the two
calls the arguments stay a permutation of the original ones, and `ct_opt_next` reports
`CT_OPT_ERROR_DONE` in all but a bounded number of its calls. -/
theorem opt_parses (defs : List Def) (distinct : Distinct defs) (argv : List Str) (permute : Bool) :
    (∀ fuel, size argv.tail < fuel → ∃ s t,
      options defs fuel (start argv permute) =
        some ((reference defs permute false argv.tail).results, s) ∧
      operands fuel s = some ((reference defs permute false argv.tail).operands, t)) ∧
    ∀ calls, (client defs (start argv permute) calls).2.argv.Perm argv ∧
      (client defs (start argv permute) calls).1.countP found ≤ size argv.tail := by
  have stands := start_at argv permute
  constructor
  · intro fuel hfuel
    obtain ⟨s, consumed, hs, standsDone, uncut⟩ := options_spec distinct fuel _ _ _ _ stands (by omega)
    have hzero : (start argv permute).subind = 0 := rfl
    rw [hzero, todo_zero] at hs standsDone
    have hlength := reference_operands_length defs permute false argv.tail
    have hsize := length_le_size argv.tail
    obtain ⟨t, ht⟩ := operands_spec fuel standsDone uncut (by
      dsimp only
      rw [List.nil_append]
      omega)
    exact ⟨s, t, hs, ht⟩
  · intro calls
    obtain ⟨hperm, hcount⟩ := client_spec distinct calls stands
    have hwork := stands.work_eq
    refine ⟨hperm, ?_⟩
    simp only [size, List.map_nil, List.sum_nil] at hwork
    simp only [size]
    omega

/-- The flag `a` and the option `b` with a required argument. -/
def flags : List Def := [⟨none, 97, .none⟩, ⟨some [98], 98, .required⟩, ⟨none, 0, .none⟩]

/-- `prog f -ab x -- -a` -/
def line : List Str := [[112], [102], [45, 97, 98], [120], [45, 45], [45, 97]]

/-- An operand is skipped, a cluster takes the token behind it, and `-a` is an operand. -/
theorem opt_parses_line :
    (∀ fuel, 14 < fuel → ∃ s t,
      options flags fuel (start line true) =
        some ([⟨.none, some 97, none⟩, ⟨.none, some 98, some [120]⟩], s) ∧
      operands fuel s = some ([[102], [45, 97]], t)) ∧
    ∀ calls, (client flags (start line true) calls).2.argv.Perm line ∧
      (client flags (start line true) calls).1.countP found ≤ 14 := by
  have parses := opt_parses flags ⟨by decide, by decide⟩ line true
  have read : reference flags true false line.tail =
      ⟨[⟨.none, some 97, none⟩, ⟨.none, some 98, some [120]⟩], [[102], [45, 97]]⟩ := by decide
  rw [read] at parses
  exact parses

end Coter.Opt
