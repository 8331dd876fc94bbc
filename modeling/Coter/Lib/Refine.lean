import Coter.Lib.Machine

/-!
# Refinement of a specification

A machine whose steps can fault, against a specification that answers every operation.

* `specRun`: the answers of the specification to a run;
* `exec_refines`, `refines_of_along`: what every step keeps carries over to runs.
-/

namespace Lib.Refine

open Lib.Machine

variable {S A Op Out F : Type}

/-- The answers of the specification, and the state it ends in. -/
def specRun (spec : A → Op → Out × A) : A → List Op → List Out × A
  | a, [] => ([], a)
  | a, op :: ops => ((spec a op).1 :: (specRun spec (spec a op).2 ops).1,
    (specRun spec (spec a op).2 ops).2)

variable {step : S → Op → Except F (Out × S)} {spec : A → Op → Out × A}
  {R : S → A → Prop} {C : Op → Prop} {P : S → Prop} {Q : S → Op → Out → S → Prop}

/-- A machine that answers every single operation as the specification does, answers every run
so, without a fault. -/
theorem exec_refines (holds : ∀ s a, R s a → P s)
    (keeps : ∀ s a op, R s a → C op →
      ∃ t, step s op = .ok ((spec a op).1, t) ∧ R t (spec a op).2 ∧ Q s op (spec a op).1 t)
    {s : S} {a : A} {ops : List Op} (h : R s a) (hops : ∀ op ∈ ops, C op) :
    (∃ t, exec step s ops = .ok ((specRun spec a ops).1, t) ∧ R t (specRun spec a ops).2) ∧
      Along step P Q s ops := by
  induction ops generalizing s a with
  | nil => exact ⟨⟨s, rfl, h⟩, holds s a h⟩
  | cons op ops ih =>
    obtain ⟨t, answer, related, kept⟩ := keeps s a op h (hops op List.mem_cons_self)
    obtain ⟨⟨u, rest, last⟩, along⟩ :=
      ih related fun op hop => hops op (List.mem_cons_of_mem _ hop)
    exact ⟨⟨u, exec_cons answer rest, last⟩, holds s a h, _, t, answer, kept, along⟩

/-- A run whose every step answers and moves on as the specification does from the state's
image. -/
theorem refines_of_along {f : S → A} (answers : ∀ s op o t, Q s op o t → spec (f s) op = (o, f t))
    {s : S} {ops : List Op} (h : Along step P Q s ops) :
    ∃ t, exec step s ops = .ok ((specRun spec (f s) ops).1, t) ∧
      f t = (specRun spec (f s) ops).2 := by
  induction ops generalizing s with
  | nil => exact ⟨s, rfl, rfl⟩
  | cons op ops ih =>
    obtain ⟨_, o, t, hs, hq, hrest⟩ := h
    obtain ⟨u, hu, last⟩ := ih hrest
    have same := answers s op o t hq
    refine ⟨u, ?_, ?_⟩
    · rw [specRun, same]
      exact exec_cons hs hu
    · rw [specRun, same]
      exact last

end Lib.Refine
