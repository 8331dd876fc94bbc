import Mathlib

/-!
# Labelled transition systems

A label carries every choice of its step, so a step is a partial function: a
label that is not enabled has no next state. A run is a list of labels.

* `run_invariant`: an invariant of the steps holds where a run ends;
* `Throughout`, `EachStep`: properties of all states and of all steps of a run;
* `throughout_iff_eachStep`: a condition on single steps that decides whether a
  property holds in every state of a run;
* `run_account`: what the steps of a run move between two accounts.
-/

namespace Lib.Lts

variable {S L : Type} (step : S → L → Option S)

/-- Where the labels lead, if each is enabled in its turn. -/
def run : S → List L → Option S
  | s, [] => some s
  | s, l :: ls => (step s l).bind (fun t => run t ls)

/-- Every state of the run has the property. -/
def Throughout (P : S → Prop) : S → List L → Prop
  | s, [] => P s
  | s, l :: ls => P s ∧ ∀ t, step s l = some t → Throughout P t ls

/-- Every step that the run takes starts where the condition holds. -/
def EachStep (C : S → L → Prop) : S → List L → Prop
  | _, [] => True
  | s, l :: ls => ∀ t, step s l = some t → C s l ∧ EachStep C t ls

instance decidableThroughout (P : S → Prop) [DecidablePred P] :
    ∀ (s : S) (ls : List L), Decidable (Throughout step P s ls)
  | s, [] => inferInstanceAs (Decidable (P s))
  | s, l :: ls =>
    match h : step s l with
    | none => decidable_of_iff (P s) (by simp [Throughout, h])
    | some t =>
      have := decidableThroughout P t ls
      decidable_of_iff (P s ∧ Throughout step P t ls) (by simp [Throughout, h])

instance decidableEachStep (C : S → L → Prop) [∀ s l, Decidable (C s l)] :
    ∀ (s : S) (ls : List L), Decidable (EachStep step C s ls)
  | _, [] => inferInstanceAs (Decidable True)
  | s, l :: ls =>
    match h : step s l with
    | none => decidable_of_iff True (by simp [EachStep, h])
    | some t =>
      have := decidableEachStep C t ls
      decidable_of_iff (C s l ∧ EachStep step C t ls) (by simp [EachStep, h])

variable {step} {I P : S → Prop} {C : S → L → Prop}

theorem run_cons {s t : S} {l : L} {ls : List L} (h : run step s (l :: ls) = some t) :
    ∃ m, step s l = some m ∧ run step m ls = some t := by
  simpa [run, Option.bind_eq_some_iff] using h

theorem run_invariant (keeps : ∀ s l t, I s → step s l = some t → I t) {s t : S} {ls : List L}
    (hi : I s) (h : run step s ls = some t) : I t := by
  induction ls generalizing s with
  | nil =>
    obtain rfl : s = t := by simpa [run] using h
    exact hi
  | cons l ls ih =>
    obtain ⟨m, hstep, hrest⟩ := run_cons h
    exact ih (keeps s l m hi hstep) hrest

theorem throughout_of_eachStep (keeps : ∀ s l t, I s → C s l → step s l = some t → I t)
    (holds : ∀ s, I s → P s) {s : S} {ls : List L} (hi : I s) (h : EachStep step C s ls) :
    Throughout step P s ls := by
  induction ls generalizing s with
  | nil => exact holds s hi
  | cons l ls ih =>
    refine ⟨holds s hi, fun t hstep => ?_⟩
    obtain ⟨hc, hrest⟩ := h t hstep
    exact ih (keeps s l t hi hc hstep) hrest

theorem throughout_of_invariant (keeps : ∀ s l t, I s → step s l = some t → I t)
    (holds : ∀ s, I s → P s) {s : S} (hi : I s) (ls : List L) : Throughout step P s ls := by
  induction ls generalizing s with
  | nil => exact holds s hi
  | cons l ls ih => exact ⟨holds s hi, fun t hstep => ih (keeps s l t hi hstep)⟩

theorem throughout_head {s : S} {ls : List L} (h : Throughout step P s ls) : P s := by
  cases ls with
  | nil => exact h
  | cons _ _ => exact h.1

/-- If an invariant that holds as long as the steps meet `C` gives `P`, and a
step that misses `C` leads out of `P`, then `P` holds throughout exactly the
runs whose steps meet `C`. -/
theorem throughout_iff_eachStep (keeps : ∀ s l t, I s → C s l → step s l = some t → I t)
    (holds : ∀ s, I s → P s) (needs : ∀ s l t, I s → step s l = some t → P t → C s l)
    {s : S} (hi : I s) (ls : List L) : Throughout step P s ls ↔ EachStep step C s ls := by
  refine ⟨fun h => ?_, throughout_of_eachStep keeps holds hi⟩
  induction ls generalizing s with
  | nil => exact trivial
  | cons l ls ih =>
    intro t hstep
    have hc := needs s l t hi hstep (throughout_head (h.2 t hstep))
    exact ⟨hc, ih (keeps s l t hi hc hstep) (h.2 t hstep)⟩

/-- A condition on the steps that keeps an invariant, and what the two give for them. -/
theorem eachStep_mono {D : S → L → Prop} (keeps : ∀ s l t, I s → D s l → step s l = some t → I t)
    (gives : ∀ s l, I s → D s l → C s l) {s : S} {ls : List L} (hi : I s)
    (h : EachStep step D s ls) : EachStep step C s ls := by
  induction ls generalizing s with
  | nil => exact trivial
  | cons l ls ih =>
    intro t hstep
    obtain ⟨hd, hrest⟩ := h t hstep
    exact ⟨gives s l hi hd, ih (keeps s l t hi hd hstep) hrest⟩

/-- Two conditions that agree on the steps taken from where an invariant holds. -/
theorem eachStep_congr {D : S → L → Prop} (keeps : ∀ s l t, I s → step s l = some t → I t)
    (same : ∀ s l t, I s → step s l = some t → (C s l ↔ D s l)) {s : S} (hi : I s) (ls : List L) :
    EachStep step C s ls ↔ EachStep step D s ls := by
  induction ls generalizing s with
  | nil => exact Iff.rfl
  | cons l ls ih =>
    constructor
    · intro h t hstep
      exact ⟨(same s l t hi hstep).1 (h t hstep).1,
        (ih (keeps s l t hi hstep)).1 (h t hstep).2⟩
    · intro h t hstep
      exact ⟨(same s l t hi hstep).2 (h t hstep).1,
        (ih (keeps s l t hi hstep)).2 (h t hstep).2⟩

theorem eachStep_of_forall {D : L → Prop} {s : S} {ls : List L} (h : ∀ l ∈ ls, D l) :
    EachStep step (fun _ l => D l) s ls := by
  induction ls generalizing s with
  | nil => exact trivial
  | cons l ls ih =>
    intro t _
    exact ⟨h l List.mem_cons_self, ih (fun m hm => h m (List.mem_cons_of_mem l hm))⟩

/-- A bound on all states that the invariant leans on, and what it gives for
the steps. -/
theorem eachStep_of_throughout (keeps : ∀ s l t, I s → P t → step s l = some t → I t ∧ C s l)
    {s : S} {ls : List L} (hi : I s) (h : Throughout step P s ls) :
    Throughout step I s ls ∧ EachStep step C s ls := by
  induction ls generalizing s with
  | nil => exact ⟨hi, trivial⟩
  | cons l ls ih =>
    have next (t : S) (hstep : step s l = some t) : I t ∧ C s l :=
      keeps s l t hi (throughout_head (h.2 t hstep)) hstep
    constructor
    · exact ⟨hi, fun t hstep => (ih (next t hstep).1 (h.2 t hstep)).1⟩
    · intro t hstep
      exact ⟨(next t hstep).2, (ih (next t hstep).1 (h.2 t hstep)).2⟩

theorem throughout_mono {Q : S → Prop} (weaken : ∀ s, P s → Q s) {s : S} {ls : List L}
    (h : Throughout step P s ls) : Throughout step Q s ls := by
  induction ls generalizing s with
  | nil => exact weaken s h
  | cons l ls ih => exact ⟨weaken s h.1, fun t hstep => ih (h.2 t hstep)⟩

theorem throughout_last {s t : S} {ls : List L} (h : Throughout step P s ls)
    (hrun : run step s ls = some t) : P t := by
  induction ls generalizing s with
  | nil =>
    obtain rfl : s = t := by simpa [run] using hrun
    exact h
  | cons l ls ih =>
    obtain ⟨m, hstep, hrest⟩ := run_cons hrun
    exact ih (h.2 m hstep) hrest

/-- Two accounts of the states and two kinds of labels: what each step moves between them, a
whole run moves. -/
theorem run_account (debit credit : S → Nat) (paid got : L → Bool)
    (each : ∀ s l t, I s → P t → step s l = some t → I t ∧
      debit t + credit s + (if paid l then 1 else 0) =
        debit s + credit t + (if got l then 1 else 0))
    {s t : S} {ls : List L} (hi : I s) (h : Throughout step P s ls)
    (hrun : run step s ls = some t) :
    debit t + credit s + ls.countP paid = debit s + credit t + ls.countP got := by
  induction ls generalizing s with
  | nil =>
    obtain rfl : s = t := by simpa [run] using hrun
    rfl
  | cons l ls ih =>
    obtain ⟨m, hstep, hrest⟩ := run_cons hrun
    obtain ⟨im, here⟩ := each s l m hi (throughout_head (h.2 m hstep)) hstep
    have later := ih im (h.2 m hstep) hrest
    rw [List.countP_cons, List.countP_cons]
    omega

end Lib.Lts
