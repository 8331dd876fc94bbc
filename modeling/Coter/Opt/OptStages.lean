import Coter.Core.Machine
import Coter.Opt.OptRun

/-!
# Sub-commands

A client that reads options until none is left, steps past the sub-command with `ct_opt_arg`,
and goes on with the options of the sub-command.

* `reference_operands_size`: what a stage leaves is no longer than what it was given;
* `stages_parse`: each stage reads what the reference makes of the rest of the arguments.
-/

namespace Coter.Opt

/-- `ct_opt_narg` -/
def narg (s : Opt) : Int := i32 (s.argv.drop s.optind).length

/-- What a client learns in a stage: its options, the number of arguments that are left, and the
sub-command in front of them. -/
structure Stage where
  results : List Result
  narg : Int
  command : Option Str
  deriving DecidableEq, Repr

/-- A client with a table of options for each stage, until there is no sub-command. -/
def stages : List (List Def) → Nat → Opt → Option (List Stage × Opt)
  | [], _, s => some ([], s)
  | defs :: more, fuel, s => do
    let (results, s) ← options defs fuel s
    let left := narg s
    match arg s with
    | (none, s) => some ([⟨results, left, none⟩], s)
    | (some command, s) =>
      let (later, s) ← stages more fuel s
      some (⟨results, left, some command⟩ :: later, s)

/-- The stages of the arguments, and what is behind them. -/
def refStages (permute : Bool) : List (List Def) → List Str → List Stage × List Str
  | [], args => ([], args)
  | defs :: more, args =>
    let p := reference defs permute false args
    match p.operands with
    | [] => ([⟨p.results, 0, none⟩], [])
    | command :: rest =>
      let (later, behind) := refStages permute more rest
      (⟨p.results, i32 (rest.length + 1), some command⟩ :: later, behind)

variable {permute : Bool} {s : Opt} {consumed rest : List Str}

theorem reference_operands_size (defs : List Def) (permute both : Bool) (rest : List Str) :
    size (reference defs permute both rest).operands ≤ size rest := by
  induction rest generalizing both with
  | nil => cases both <;> exact Nat.le_refl 0
  | cons a rest ih =>
    rw [size_cons]
    cases both with
    | true => exact (ih false).trans (Nat.le_add_left ..)
    | false =>
      cases ha : token a with
      | dashes => simp [reference, ha]
      | operand =>
        cases permute with
        | true => simpa [reference, ha, size_cons] using ih false
        | false => simp [reference, ha, size_cons]
      | long option => simpa [reference, ha] using (ih _).trans (Nat.le_add_left ..)
      | cluster letters => simpa [reference, ha] using (ih _).trans (Nat.le_add_left ..)

theorem narg_eq (stands : At permute s consumed [] rest) : narg s = i32 rest.length := by
  rw [narg, stands.tail, List.nil_append]

theorem stages_spec {tables : List (List Def)} (distinct : ∀ defs ∈ tables, Distinct defs)
    {fuel : Nat} (stands : At permute s consumed [] rest) (uncut : s.subind = 0)
    (enough : size rest < fuel) :
    ∃ t consumed', stages tables fuel s = some ((refStages permute tables rest).1, t) ∧
      At permute t consumed' [] (refStages permute tables rest).2 := by
  induction tables generalizing s consumed rest with
  | nil => exact ⟨s, consumed, rfl, stands⟩
  | cons defs more ih =>
    obtain ⟨t, done, read, behind, whole⟩ :=
      options_spec (distinct defs List.mem_cons_self) fuel _ _ _ _ stands (by omega)
    rw [uncut, todo_zero] at read behind
    have shorter := reference_operands_size defs permute false rest
    have left := narg_eq behind
    simp only [List.nil_append] at behind left
    rw [stages, read]
    dsimp only [Option.bind_eq_bind, Option.bind_some]
    rw [refStages]
    cases hoperands : (reference defs permute false rest).operands with
    | nil =>
      rw [hoperands] at behind left
      rw [arg_end behind, left]
      exact ⟨t, done, rfl, behind⟩
    | cons command rest' =>
      rw [hoperands] at behind left shorter
      rw [size_cons] at shorter
      obtain ⟨u, took, stands', uncut'⟩ := arg_spec behind whole
      obtain ⟨v, consumed', later, final⟩ :=
        ih (fun d hd => distinct d (List.mem_cons_of_mem defs hd)) stands' uncut' (by omega)
      rw [took, left]
      dsimp only
      rw [later]
      exact ⟨v, consumed', rfl, final⟩

/-- **Sub-commands.** With a table of options of distinct names for every stage, in either mode
and for all arguments, a client that reads the options of a stage up to `CT_OPT_ERROR_DONE`, asks
`ct_opt_narg`, and steps past the sub-command with `ct_opt_arg` ends, and learns in each stage
what the reference makes of the arguments behind the last sub-command; and the arguments behind
the stages are still there, in their order. -/
theorem stages_parse (tables : List (List Def)) (distinct : ∀ defs ∈ tables, Distinct defs)
    (argv : List Str) (permute : Bool) (fuel : Nat) (enough : size argv.tail < fuel) :
    ∃ s, stages tables fuel (start argv permute) =
        some ((refStages permute tables argv.tail).1, s) ∧
      s.argv.drop s.optind = (refStages permute tables argv.tail).2 := by
  obtain ⟨s, consumed, parsed, stands⟩ := stages_spec distinct (start_at argv permute) rfl enough
  exact ⟨s, parsed, stands.tail⟩

/-- `prog -a run -ab x -- -a`: the options of the program, and those of `run`. -/
theorem stages_parse_run : ∃ s,
    stages [flags, flags] 21
      (start [[112], [45, 97], [114], [45, 97, 98], [120], [45, 45], [45, 97]] false) =
      some ([⟨[⟨.none, some 97, none⟩], 5, some [114]⟩,
        ⟨[⟨.none, some 97, none⟩, ⟨.none, some 98, some [120]⟩], 1, some [45, 97]⟩], s) ∧
      s.argv.drop s.optind = [] := by
  have parsed := stages_parse [flags, flags] (by simpa using ⟨by decide, by decide⟩)
    [[112], [45, 97], [114], [45, 97, 98], [120], [45, 45], [45, 97]] false 21 (by decide)
  have read : refStages false [flags, flags]
      [[45, 97], [114], [45, 97, 98], [120], [45, 45], [45, 97]] =
      ([⟨[⟨.none, some 97, none⟩], 5, some [114]⟩,
        ⟨[⟨.none, some 97, none⟩, ⟨.none, some 98, some [120]⟩], 1, some [45, 97]⟩], []) := by decide
  rw [List.tail_cons, read] at parsed
  exact parsed

end Coter.Opt
