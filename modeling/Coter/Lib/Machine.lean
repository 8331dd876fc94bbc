import Mathlib

/-!
# Machines whose steps can fault

A machine takes one operation at a time, answers it and moves on, or faults.

* `Along`: a run without a fault, with a property of every state and step;
* `Meets`: every step of a run starts where a condition holds;
* `AlongUnless`: the same where some faults are excused;
* `along_of_meets`, `meets_of_along`, `along_iff_meets`, `alongUnless_iff_meets`: a
  condition on single steps decides a whole run.
-/

namespace Lib.Machine

variable {S Op Out F : Type} (step : S → Op → Except F (Out × S))

/-- The answers of a run and the state it ends in. -/
def exec : S → List Op → Except F (List Out × S)
  | s, [] => .ok ([], s)
  | s, op :: ops =>
    match step s op with
    | .error e => .error e
    | .ok (o, t) =>
      match exec t ops with
      | .error e => .error e
      | .ok (os, u) => .ok (o :: os, u)

/-- The run does not fault, every state it passes satisfies `P`, every step `Q`. -/
def Along (P : S → Prop) (Q : S → Op → Out → S → Prop) : S → List Op → Prop
  | s, [] => P s
  | s, op :: ops => P s ∧ ∃ o t, step s op = .ok (o, t) ∧ Q s op o t ∧ Along P Q t ops

/-- Every step of the run that is reached starts where `C` holds. -/
def Meets (C : S → Op → Prop) : S → List Op → Prop
  | _, [] => True
  | s, op :: ops => C s op ∧ ∀ o t, step s op = .ok (o, t) → Meets C t ops

/-- As `Along`, where the run may also stop at a fault that `E` excuses. -/
def AlongUnless (E : Op → F → Prop) (P : S → Prop) (Q : S → Op → Out → S → Prop) :
    S → List Op → Prop
  | s, [] => P s
  | s, op :: ops => P s ∧ ((∃ e, step s op = .error e ∧ E op e) ∨
      ∃ o t, step s op = .ok (o, t) ∧ Q s op o t ∧ AlongUnless E P Q t ops)

instance decidableMeets (C : S → Op → Prop) [∀ s op, Decidable (C s op)] :
    ∀ (s : S) (ops : List Op), Decidable (Meets step C s ops)
  | _, [] => isTrue trivial
  | s, op :: ops =>
    match h : step s op with
    | .error _ => decidable_of_iff (C s op) (by simp [Meets, h])
    | .ok (_, t) =>
      have := decidableMeets C t ops
      decidable_of_iff (C s op ∧ Meets step C t ops) (by simp [Meets, h])

variable {step} {C : S → Op → Prop} {I P : S → Prop} {Q : S → Op → Out → S → Prop}

theorem exec_cons {s t u : S} {op : Op} {ops : List Op} {o : Out} {os : List Out}
    (h : step s op = .ok (o, t)) (hrest : exec step t ops = .ok (os, u)) :
    exec step s (op :: ops) = .ok (o :: os, u) := by
  simp only [exec, h, hrest]

theorem exec_append {s t u : S} {as bs : List Op} {xs ys : List Out}
    (ha : exec step s as = .ok (xs, t)) (hb : exec step t bs = .ok (ys, u)) :
    exec step s (as ++ bs) = .ok (xs ++ ys, u) := by
  induction as generalizing s xs with
  | nil =>
    obtain ⟨rfl, rfl⟩ : [] = xs ∧ s = t := by simpa [exec] using ha
    exact hb
  | cons op ops ih =>
    simp only [exec] at ha
    cases hs : step s op with
    | error e => simp [hs] at ha
    | ok r =>
      obtain ⟨o, v⟩ := r
      cases hr : exec step v ops with
      | error e => simp [hs, hr] at ha
      | ok r =>
        obtain ⟨os, z⟩ := r
        obtain ⟨rfl, rfl⟩ : o :: os = xs ∧ z = t := by simpa [hs, hr] using ha
        exact exec_cons hs (ih hr)

theorem meets_append {s t : S} {as bs : List Op} {os : List Out}
    (h : Meets step C s (as ++ bs)) (ha : exec step s as = .ok (os, t)) : Meets step C t bs := by
  induction as generalizing s os with
  | nil =>
    obtain ⟨_, rfl⟩ : [] = os ∧ s = t := by simpa [exec] using ha
    exact h
  | cons op ops ih =>
    simp only [exec] at ha
    cases hs : step s op with
    | error e => simp [hs] at ha
    | ok r =>
      obtain ⟨o, v⟩ := r
      cases hr : exec step v ops with
      | error e => simp [hs, hr] at ha
      | ok r =>
        obtain ⟨xs, z⟩ := r
        obtain ⟨_, rfl⟩ : o :: xs = os ∧ z = t := by simpa [hs, hr] using ha
        exact ih (h.2 o v hs) hr

theorem meets_left {s : S} {as bs : List Op} (h : Meets step C s (as ++ bs)) :
    Meets step C s as := by
  induction as generalizing s with
  | nil => exact trivial
  | cons op ops ih => exact ⟨h.1, fun o t hs => ih (h.2 o t hs)⟩

theorem meets_cons {s t : S} {op : Op} {ops : List Op} {o : Out} (hs : step s op = .ok (o, t))
    (hc : C s op) (h : Meets step C t ops) : Meets step C s (op :: ops) := by
  refine ⟨hc, fun o' t' hs' => ?_⟩
  obtain ⟨rfl, rfl⟩ : o = o' ∧ t = t' := by simpa [hs] using hs'
  exact h

theorem along_head {s : S} {ops : List Op} (h : Along step P Q s ops) : P s := by
  cases ops with
  | nil => exact h
  | cons _ _ => exact h.1

theorem alongUnless_head {E : Op → F → Prop} {s : S} {ops : List Op}
    (h : AlongUnless step E P Q s ops) : P s := by
  cases ops with
  | nil => exact h
  | cons _ _ => exact h.1

/-- A condition on the operations alone. -/
theorem meets_of_forall {C : Op → Prop} (s : S) {ops : List Op} (h : ∀ op ∈ ops, C op) :
    Meets step (fun _ => C) s ops := by
  induction ops generalizing s with
  | nil => exact trivial
  | cons op ops ih =>
    exact ⟨h op (List.mem_cons_self ..), fun _ t _ => ih t fun op hop =>
      h op (List.mem_cons_of_mem _ hop)⟩

/-- An invariant that every step meeting the condition keeps holds along the run. -/
theorem along_of_meets (holds : ∀ s, I s → P s)
    (keeps : ∀ s op, I s → C s op → ∃ o t, step s op = .ok (o, t) ∧ Q s op o t ∧ I t)
    {s : S} {ops : List Op} (hi : I s) (h : Meets step C s ops) : Along step P Q s ops := by
  induction ops generalizing s with
  | nil => exact holds s hi
  | cons op ops ih =>
    obtain ⟨o, t, hs, hq, ht⟩ := keeps s op hi h.1
    exact ⟨holds s hi, o, t, hs, hq, ih ht (h.2 o t hs)⟩

/-- An invariant that every step keeps holds along every run. -/
theorem along_of_invariant (holds : ∀ s, I s → P s)
    (keeps : ∀ s op, I s → ∃ o t, step s op = .ok (o, t) ∧ Q s op o t ∧ I t)
    {s : S} (hi : I s) (ops : List Op) : Along step P Q s ops := by
  induction ops generalizing s with
  | nil => exact holds s hi
  | cons op ops ih =>
    obtain ⟨o, t, hs, hq, ht⟩ := keeps s op hi
    exact ⟨holds s hi, o, t, hs, hq, ih ht⟩

theorem alongUnless_of_meets {E : Op → F → Prop} (holds : ∀ s, I s → P s)
    (keeps : ∀ s op, I s → C s op → (∃ e, step s op = .error e ∧ E op e) ∨
      ∃ o t, step s op = .ok (o, t) ∧ Q s op o t ∧ I t)
    {s : S} {ops : List Op} (hi : I s) (h : Meets step C s ops) :
    AlongUnless step E P Q s ops := by
  induction ops generalizing s with
  | nil => exact holds s hi
  | cons op ops ih =>
    refine ⟨holds s hi, ?_⟩
    rcases keeps s op hi h.1 with fault | ⟨o, t, hs, hq, ht⟩
    · exact Or.inl fault
    · exact Or.inr ⟨o, t, hs, hq, ih ht (h.2 o t hs)⟩

/-- Where a run with the property ends. -/
theorem exec_of_along {s : S} {ops : List Op} (h : Along step P Q s ops) :
    ∃ os t, exec step s ops = .ok (os, t) ∧ P t := by
  induction ops generalizing s with
  | nil => exact ⟨[], s, rfl, h⟩
  | cons op ops ih =>
    obtain ⟨_, o, t, hs, _, hrest⟩ := h
    obtain ⟨os, u, hu, hp⟩ := ih hrest
    exact ⟨o :: os, u, exec_cons hs hu, hp⟩

/-- A run with the property has every step start where the condition holds. -/
theorem meets_of_along
    (needs : ∀ s op o t, I s → step s op = .ok (o, t) → P t → C s op ∧ I t)
    {s : S} {ops : List Op} (hi : I s) (h : Along step P Q s ops) : Meets step C s ops := by
  induction ops generalizing s with
  | nil => exact trivial
  | cons op ops ih =>
    obtain ⟨_, o, t, hs, _, hrest⟩ := h
    obtain ⟨hc, ht⟩ := needs s op o t hi hs (along_head hrest)
    exact meets_cons hs hc (ih ht hrest)

/-- If an invariant that gives `P` is kept by the steps that meet `D`, and a step
that misses `D` lacks `Q` or leads out of `P`, then the runs with `P` and `Q` all
along are exactly those whose steps meet `D`. -/
theorem along_iff_meets {D : S → Op → Prop} (holds : ∀ s, I s → P s)
    (keeps : ∀ s op, I s → C s op → D s op → ∃ o t, step s op = .ok (o, t) ∧ Q s op o t ∧ I t)
    (needs : ∀ s op o t, I s → C s op → step s op = .ok (o, t) → Q s op o t → P t → D s op)
    {s : S} {ops : List Op} (hi : I s) (hc : Meets step C s ops) :
    Along step P Q s ops ↔ Meets step D s ops := by
  induction ops generalizing s with
  | nil => exact ⟨fun _ => trivial, fun _ => holds s hi⟩
  | cons op ops ih =>
    constructor
    · rintro ⟨_, o, t, hs, hq, hrest⟩
      have hd := needs s op o t hi hc.1 hs hq (along_head hrest)
      obtain ⟨o', t', hs', -, ht⟩ := keeps s op hi hc.1 hd
      obtain ⟨rfl, rfl⟩ : o = o' ∧ t = t' := by simpa [hs] using hs'
      exact meets_cons hs hd ((ih ht (hc.2 o t hs)).1 hrest)
    · rintro ⟨hd, hrest⟩
      obtain ⟨o, t, hs, hq, ht⟩ := keeps s op hi hc.1 hd
      exact ⟨holds s hi, o, t, hs, hq, (ih ht (hc.2 o t hs)).2 (hrest o t hs)⟩

/-- As `along_iff_meets`, for runs that may stop at an excused fault: a step that stops
there meets `D` as well. -/
theorem alongUnless_iff_meets {D : S → Op → Prop} {E : Op → F → Prop} (holds : ∀ s, I s → P s)
    (keeps : ∀ s op, I s → D s op → (∃ e, step s op = .error e ∧ E op e) ∨
      ∃ o t, step s op = .ok (o, t) ∧ Q s op o t ∧ I t)
    (stops : ∀ s op e, I s → step s op = .error e → E op e → D s op)
    (needs : ∀ s op o t, I s → step s op = .ok (o, t) → Q s op o t → P t → D s op)
    {s : S} {ops : List Op} (hi : I s) :
    AlongUnless step E P Q s ops ↔ Meets step D s ops := by
  refine ⟨fun h => ?_, alongUnless_of_meets holds keeps hi⟩
  induction ops generalizing s with
  | nil => exact trivial
  | cons op ops ih =>
    obtain ⟨_, ⟨e, fault, excused⟩ | ⟨o, t, hs, hq, hrest⟩⟩ := h
    · refine ⟨stops s op e hi fault excused, fun o t hs => ?_⟩
      rw [fault] at hs
      cases hs
    · have hd := needs s op o t hi hs hq (alongUnless_head hrest)
      rcases keeps s op hi hd with ⟨e, fault, _⟩ | ⟨o', t', hs', -, ht⟩
      · rw [fault] at hs
        cases hs
      · obtain ⟨rfl, rfl⟩ : o = o' ∧ t = t' := by simpa [hs] using hs'
        exact meets_cons hs hd (ih ht hrest)

/-- The invariant at the end of a run whose steps meet the condition. -/
theorem exec_of_meets
    (keeps : ∀ s op, I s → C s op → ∃ o t, step s op = .ok (o, t) ∧ I t)
    {s : S} {ops : List Op} (hi : I s) (h : Meets step C s ops) :
    ∃ os t, exec step s ops = .ok (os, t) ∧ I t := by
  induction ops generalizing s with
  | nil => exact ⟨[], s, rfl, hi⟩
  | cons op ops ih =>
    obtain ⟨o, t, hs, ht⟩ := keeps s op hi h.1
    obtain ⟨os, u, hrest, hu⟩ := ih ht (h.2 o t hs)
    exact ⟨o :: os, u, exec_cons hs hrest, hu⟩

end Lib.Machine
