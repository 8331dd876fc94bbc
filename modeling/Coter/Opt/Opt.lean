import Mathlib

/-!
# The option parser

`ct_opt`: options and their arguments are moved in front of the operands while
the argument vector is scanned.

A C string is the list of its bytes in front of the terminating NUL, and an
argument vector the list of its strings in front of the terminating `NULL`. `optind`
is an `int` in the source and a number without bound here: it never passes `argc`, which
is an `int`. A position in a string is one too, for strings shorter than `INT_MAX`.
-/

namespace Coter

abbrev Str := List UInt8

namespace Opt

inductive Error
  | none
  | done
  | invalid
  | missing
  | toomany
  deriving DecidableEq, Repr

inductive ArgType
  | none
  | required
  | optional
  deriving DecidableEq, Repr

/-- `ct_opt_def_t`, without the texts for the help. -/
structure Def where
  longname : Option Str
  shortname : Int
  argtype : ArgType
  deriving DecidableEq, Repr

end Opt

/-- `ct_opt_t`. -/
structure Opt where
  optarg : Option Str
  argv : List Str
  permute : Bool
  optind : Nat
  optopt : Int
  subind : Nat
  deriving DecidableEq, Repr

namespace Opt

/-! ## Tokens and names -/

/-- `'-'` -/
def dash : UInt8 := 45

/-- `'='` -/
def equals : UInt8 := 61

/-- A `char` as an `int`, for a signed `char`. -/
def ofChar (c : UInt8) : Int := if c < 128 then c.toNat else (c.toNat : Int) - 256

/-- `opt_is_dashdash`. -/
def isDashdash : Str → Bool
  | [a, b] => a == dash && b == dash
  | _ => false

/-- `opt_is_short`. -/
def isShort : Str → Bool
  | a :: b :: _ => a == dash && b != dash
  | _ => false

/-- `opt_is_long`. -/
def isLong : Str → Bool
  | a :: b :: _ :: _ => a == dash && b == dash
  | _ => false

/-- `opt_is_end`. -/
def isEnd (d : Def) : Bool := d.longname.isNone && d.shortname == 0

/-- The descriptors in front of the terminating one. -/
def entries (defs : List Def) : List Def := defs.takeWhile fun d => !isEnd d

/-- The loop of `opt_match` on `option` and `longname`, and the test behind it. -/
def matchFrom : Str → Str → Bool
  | c :: a, d :: n => if c = equals then false else if c ≠ d then false else matchFrom a n
  | a, n => n.isEmpty && (a.isEmpty || a.head? == some equals)

/-- `opt_match`. -/
def optMatch (longname : Option Str) (option : Str) : Bool :=
  match longname with
  | none => false
  | some n => matchFrom option n

/-- `strchr(s, '=')`, as the string behind the character found. -/
def behindEquals : Str → Option Str
  | [] => none
  | c :: s => if c = equals then some s else behindEquals s

section

variable {α : Type}

/-- The inner loop of `opt_permute`, from `j` down to `target`. -/
def slide (argv : List α) (target : Nat) : Nat → List α
  | 0 => argv
  | j + 1 =>
    if target < j + 1 then
      match argv[j]? with
      | none => argv
      | some a => slide (argv.set (j + 1) a) target j
    else argv

/-- `opt_permute`, where `i` and `target` are `from + k` and `to + k`. -/
def optPermute (argv : List α) (i target : Nat) : Nat → List α
  | 0 => argv
  | count + 1 =>
    match argv[i]? with
    | none => argv
    | some tmp => optPermute ((slide argv target i).set target tmp) (i + 1) (target + 1) count

end

/-! ## Parsing -/

variable (defs : List Def)

/-- The `argtype` of the last descriptor of the short option `c`, if any. -/
def shortType (c : UInt8) : Option ArgType :=
  if 33 ≤ ofChar c ∧ ofChar c < 127 then
    (entries defs).foldl (fun type d => if d.shortname = ofChar c then some d.argtype else type) none
  else none

/-- The error, what was stored through `out_id`, and the state. -/
abbrev Step := Error × Option Int × Opt

/-- `opt_parse_short`. -/
def optParseShort (s : Opt) : Step :=
  let s := { s with optopt := 0, optarg := none }
  match s.argv[s.optind]? with
  | none => (.done, none, s)
  | some option =>
    if isDashdash option then (.done, none, { s with optind := s.optind + 1 })
    else if !isShort option then (.done, none, s)
    else
      let option := option.drop (s.subind + 1)
      let c := option.headD 0
      let next := s.argv[s.optind + 1]?
      let s := { s with optopt := ofChar c }
      match shortType defs c with
      | some .none =>
        if option.tail ≠ [] then (.none, some (ofChar c), { s with subind := s.subind + 1 })
        else (.none, some (ofChar c), { s with subind := 0, optind := s.optind + 1 })
      | some .required =>
        let s := { s with subind := 0, optind := s.optind + 1 }
        if option.tail ≠ [] then (.none, some (ofChar c), { s with optarg := some option.tail })
        else
          match next with
          | some next =>
            (.none, some (ofChar c), { s with optarg := some next, optind := s.optind + 1 })
          | none => (.missing, some (ofChar c), s)
      | some .optional =>
        let optarg := if option.tail ≠ [] then some option.tail else none
        (.none, some (ofChar c), { s with subind := 0, optind := s.optind + 1, optarg })
      | none => (.invalid, none, { s with subind := 0, optind := s.optind + 1 })

/-- `opt_parse_long`. -/
def optParseLong (s : Opt) : Step :=
  let s := { s with optopt := 0, optarg := none }
  let option := (s.argv[s.optind]?.getD []).drop 2
  let s := { s with optind := s.optind + 1 }
  match (entries defs).find? (fun d => optMatch d.longname option) with
  | none => (.invalid, none, s)
  | some d =>
    let s := { s with optopt := d.shortname }
    let val := behindEquals option
    if d.argtype = .none ∧ val.isSome then (.toomany, some d.shortname, s)
    else
      match val with
      | some v => (.none, some d.shortname, { s with optarg := some v })
      | none =>
        if d.argtype = .required then
          match s.argv[s.optind]? with
          | none => (.missing, some d.shortname, s)
          | some a => (.none, some d.shortname, { s with optarg := some a, optind := s.optind + 1 })
        else (.none, some d.shortname, s)

/-! ## The interface -/

/-- `ct_opt_init`. -/
def init (argv : List Str) : Opt where
  optarg := none
  argv := argv
  permute := true
  optind := if argv.head?.isSome then 1 else 0
  optopt := 0
  subind := 0

/-- `ct_opt_arg`. -/
def arg (s : Opt) : Option Str × Opt :=
  if s.subind ≠ 0 then (none, s)
  else
    match s.argv[s.optind]? with
    | none => (none, s)
    | some a => (some a, { s with optind := s.optind + 1 })

/-- The end of `ct_opt_next`: what was parsed is moved from `i` to `target`. -/
def settle (s : Opt) (i target : Nat) : Opt :=
  let consumed := s.optind - i
  let argv := if target < i then optPermute s.argv i target consumed else s.argv
  { s with argv, optind := target + consumed }

/-- The loop of `ct_opt_next` at `i`, where `argv[i]` and what follows is `rest`. -/
def nextFrom (s : Opt) (i : Nat) : List Str → Step
  | [] => (.done, none, s)
  | a :: rest =>
    if isDashdash a then
      let argv := if s.optind < i then optPermute s.argv i s.optind 1 else s.argv
      (.done, none, { s with argv, optind := s.optind + 1 })
    else if !isShort a && !isLong a then
      if !s.permute then (.done, none, { s with optind := i })
      else nextFrom s (i + 1) rest
    else
      let parse := if isShort a then optParseShort defs else optParseLong defs
      let (r, id, t) := parse { s with optind := i }
      (r, id, t.settle i s.optind)

/-- `ct_opt_next`. -/
def next (s : Opt) : Step := s.nextFrom defs s.optind (s.argv.drop s.optind)

/-! ## A client -/

/-- What a call of `ct_opt_next` tells its caller. -/
structure Result where
  error : Error
  id : Option Int
  optarg : Option Str
  deriving DecidableEq, Repr

/-- Calls of `ct_opt_next` until it reports `CT_OPT_ERROR_DONE`. -/
def options : Nat → Opt → Option (List Result × Opt)
  | 0, _ => none
  | fuel + 1, s =>
    match s.next defs with
    | (.done, _, s) => some ([], s)
    | (r, id, s) => (options fuel s).map fun (rs, t) => (⟨r, id, s.optarg⟩ :: rs, t)

/-- Calls of `ct_opt_arg` until it returns `NULL`. -/
def operands : Nat → Opt → Option (List Str × Opt)
  | 0, _ => none
  | fuel + 1, s =>
    match s.arg with
    | (none, s) => some ([], s)
    | (some a, s) => (operands fuel s).map fun (as, t) => (a :: as, t)

end Opt

end Coter
