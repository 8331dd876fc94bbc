import Coter.Lib.Wrap
import Coter.Opt.Opt

/-!
# The help text

`ct_opt_help`: one entry for each option that has a description, with the
descriptions in one column of their own.

An `int` is an `Int` that does not wrap: the source adds up a few string lengths
in an `int`, and the results hold of it where these sums stay below `INT_MAX`. A
`FILE` is the text printed to it.
-/

namespace Coter.Opt

/-- `' '` -/
def space : UInt8 := 32

/-- `'\n'` -/
def newline : UInt8 := 10

/-- `ct_opt_def_t`, with the texts for the help. -/
structure Entry extends Def where
  desc : Option Str
  metavar : Option Str
  deriving DecidableEq, Repr

/-- `ct_opt_help_config_t`. -/
structure HelpConfig where
  width : Int
  minDesc : Int
  maxLeft : Int
  deriving DecidableEq, Repr

/-- `CT_OPT_HELP_CONFIG_INIT` -/
def HelpConfig.init : HelpConfig := ⟨80, 26, 36⟩

/-- `opt_resolve_config`. -/
def resolveConfig : Option HelpConfig → HelpConfig
  | none => .init
  | some cfg =>
    { width := if 0 < cfg.width then cfg.width else HelpConfig.init.width
      minDesc := if 0 < cfg.minDesc then cfg.minDesc else HelpConfig.init.minDesc
      maxLeft := if 0 < cfg.maxLeft then cfg.maxLeft else HelpConfig.init.maxLeft }

namespace Entry

variable (d : Entry)

/-- `has_short` -/
def hasShort : Bool := 33 ≤ d.shortname && d.shortname < 127

/-- The long name as it is printed, or the empty string. -/
def name : Str := d.longname.getD []

/-- `has_long` -/
def hasLong : Bool := !d.name.isEmpty

/-- `metavar`, or `"ARG"`. -/
def argument : Str := d.metavar.getD [65, 82, 71]

/-- `(char)def->shortname` -/
def short : UInt8 := UInt8.ofNat (d.shortname % 256).toNat

/-- The description, or the empty string. -/
def text : Str := d.desc.getD []

/-- `def->desc && def->desc[0]` -/
def described : Bool := !d.text.isEmpty

end Entry

/-- `opt_help_width`. -/
def helpWidth (d : Entry) : Int :=
  let w : Int := if d.hasLong then 8 + d.name.length else if d.hasShort then 4 else 0
  match d.argtype with
  | .required => w + (1 + d.argument.length)
  | .optional => w + (3 + d.argument.length)
  | .none => w

/-- `fprintf(out, "%*s", n, "")` -/
def blanks (n : Int) : Str := List.replicate n.natAbs space

/-- The option that `opt_help_option` prints in front of the padding. -/
def helpLabel (d : Entry) : Str :=
  let option :=
    if d.hasShort ∧ d.hasLong then
      -- "  -%c, --%s"
      [space, space, dash, d.short, 44, space, dash, dash] ++ d.name
    else if d.hasShort then [space, space, dash, d.short]
    else [space, space, space, space, space, space, dash, dash] ++ d.name
  match d.argtype with
  | .required => option ++ equals :: d.argument
  | .optional => option ++ (91 :: equals :: d.argument ++ [93])
  | .none => option

/-- `opt_help_option`: what it prints. It returns the number of these characters. -/
def helpOption (d : Entry) (col : Int) : Str :=
  let printed := helpLabel d
  printed ++ List.replicate (col - printed.length).toNat space

/-- `for (w = desc; *w && *w != ' ' && *w != '\n'; ++w, ++wlen)` -/
def helpWord (desc : Str) : Str := desc.takeWhile fun c => c != space && c != newline

/-- The loop of `opt_help_desc`. -/
def helpDescFrom (col avail pos : Int) : Str → Str
  | [] => []
  | c :: desc =>
    if c = newline then newline :: (blanks col ++ helpDescFrom col avail 0 desc)
    else
      let w := helpWord (c :: desc)
      let wlen := w.length
      let wraps := 0 < pos ∧ avail < pos + 1 + wlen
      let lead := if wraps then newline :: blanks col else []
      let pos := if wraps then 0 else pos
      let gap := if 0 < pos then [space] else []
      let pos := if 0 < pos then pos + 1 else pos
      lead ++ (gap ++ (w ++ helpDescFrom col avail (pos + wlen)
        (((c :: desc).drop wlen).dropWhile fun c => c == space)))
termination_by desc => desc.length
decreasing_by
  · exact Nat.lt_succ_self _
  · exact Lib.Wrap.rest_length space newline _ ‹_›

/-- `opt_help_desc`. -/
def helpDesc (desc : Str) (col width : Int) : Str :=
  let avail := width - col
  let avail := if avail < 10 then 10 else avail
  helpDescFrom col avail 0 desc ++ [newline]

/-- The entries that the loops of `ct_opt_help` run over. -/
def listed (defs : List Entry) (count : Int) : List Entry :=
  (if count < 0 then defs else defs.take count.toNat).takeWhile fun d => !isEnd d.toDef

/-- `desc_max` -/
def HelpConfig.descMax (c : HelpConfig) : Int :=
  if c.width ≤ c.minDesc then c.width.tdiv 2 else c.width - c.minDesc

/-- The body of the first loop of `ct_opt_help`, on `desc_col` and `actual_max`. -/
def measureEntry (c : HelpConfig) (s : Int × Int) (d : Entry) : Int × Int :=
  let (descCol, actualMax) := s
  if !d.described then s
  else
    let lw := helpWidth d + 2
    let actualMax := if actualMax < lw then lw else actualMax
    let descCol := if lw ≤ c.maxLeft ∧ lw ≤ c.descMax ∧ descCol < lw then lw else descCol
    (descCol, actualMax)

/-- The column of the descriptions. -/
def descColumn (c : HelpConfig) (defs : List Entry) : Int :=
  let (descCol, actualMax) := defs.foldl (measureEntry c) (0, 0)
  let descCol :=
    if descCol = 0 ∧ 0 < actualMax then if actualMax < c.descMax then actualMax else c.descMax
    else descCol
  let descCol := if c.descMax < descCol then c.descMax else descCol
  if descCol < 2 then 2 else descCol

/-- The body of the second loop of `ct_opt_help`. -/
def helpEntry (col width : Int) (d : Entry) : Str :=
  if !d.described then []
  else
    let label :=
      if col < helpWidth d + 2 then helpOption d 0 ++ newline :: blanks col else helpOption d col
    label ++ helpDesc d.text col width

/-- `ct_opt_help`. -/
def help (out : Option Str) (defs : Option (List Entry)) (count : Int) (cfg : Option HelpConfig) :
    Option Str :=
  match out, defs with
  | some out, some defs =>
    if count = 0 ∨ defs.head?.all fun d => isEnd d.toDef then some out
    else
      let c := resolveConfig cfg
      let defs := listed defs count
      some (out ++ defs.flatMap (helpEntry (descColumn c defs) c.width))
  | out, _ => out

end Coter.Opt
