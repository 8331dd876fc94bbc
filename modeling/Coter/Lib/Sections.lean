import Coter.Lib.Machine

/-!
# Operations in sections

Threads work on one object, each in a section of several accesses. A section that writes has
the object to itself.

* `Leads`: what a section comes to if nobody disturbs it;
* `Object`: the operations, access by access and as a whole;
* `Inv.enter`, `Inv.goes`, `Inv.ends`: the operations that are over are those of a run of whole
  operations, and those under way do what they would do alone.
-/

namespace Lib.Sections

open Lib.Machine

variable {A Op Sec Out F : Type}

/-- From here on the section, left alone, answers `out` and leaves `b`. -/
inductive Leads (turn : A → Sec → Except F ((Sec ⊕ Out) × A)) : A → Sec → Out → A → Prop
  | ends {a b : A} {sec : Sec} {out : Out} (h : turn a sec = .ok (.inr out, b)) :
      Leads turn a sec out b
  | goes {a m b : A} {sec sec' : Sec} {out : Out} (h : turn a sec = .ok (.inl sec', m))
      (rest : Leads turn m sec' out b) : Leads turn a sec out b

section Leads

variable {turn : A → Sec → Except F ((Sec ⊕ Out) × A)} {a b m : A} {sec sec' : Sec} {out out' : Out}

theorem Leads.turns (h : Leads turn a sec out b) : ∃ x, turn a sec = .ok x := by
  cases h with
  | ends h => exact ⟨_, h⟩
  | goes h rest => exact ⟨_, h⟩

theorem Leads.later (h : Leads turn a sec out b) (hturn : turn a sec = .ok (.inl sec', m)) :
    Leads turn m sec' out b := by
  cases h with
  | ends h =>
    rw [hturn] at h
    cases h
  | goes h rest =>
    rw [hturn] at h
    cases h
    exact rest

theorem Leads.last (h : Leads turn a sec out b) (hturn : turn a sec = .ok (.inr out', m)) :
    out = out' ∧ b = m := by
  cases h with
  | ends h =>
    rw [hturn] at h
    cases h
    exact ⟨rfl, rfl⟩
  | goes h rest =>
    rw [hturn] at h
    cases h

end Leads

/-- Operations on an object: one access of a section after the other, and as a whole. -/
structure Object (A Op Sec Out F : Type) where
  whole : A → Op → Except F (Out × A)
  first : Op → Sec
  turn : Op → A → Sec → Except F ((Sec ⊕ Out) × A)
  writes : Op → Bool
  alone : ∀ a op out b, whole a op = .ok (out, b) → Leads (turn op) a (first op) out b
  reads : ∀ op a sec x b, writes op = false → turn op a sec = .ok (x, b) → b = a

/-- No writer is inside together with another thread. -/
def Exclusive (writes : Op → Bool) (inside : Nat → Option (Op × Sec)) : Prop :=
  ∀ t u, t ≠ u → ∀ x y, inside t = some x → inside u = some y → writes x.1 = false

variable (o : Object A Op Sec Out F)

/-- The object `a`, what the operations that are over have made of it, and these operations. -/
structure Inv (start : A) (inside : Nat → Option (Op × Sec)) (a settled : A)
    (done : List (Op × Out)) : Prop where
  linear : exec o.whole start (done.map Prod.fst) = .ok (done.map Prod.snd, settled)
  ways : ∀ t op sec, inside t = some (op, sec) →
    ∃ out b, o.whole settled op = .ok (out, b) ∧ Leads (o.turn op) a sec out b
  quiet : (∀ t op sec, inside t = some (op, sec) → o.writes op = false) → a = settled

variable {o} {start a settled b : A} {inside : Nat → Option (Op × Sec)} {done : List (Op × Out)}
  {t : Nat} {op : Op} {sec sec' : Sec} {out : Out}

theorem inv_start (h : ∀ t, inside t = none) : Inv o start inside start start [] where
  linear := rfl
  ways t op sec ht := by
    rw [h t] at ht
    cases ht
  quiet _ := rfl

/-- Whoever is inside together with others finds the object settled. -/
theorem Inv.clean (i : Inv o start inside a settled done) (ex : Exclusive o.writes inside)
    {u : Nat} {x y : Op × Sec} (ht : inside t = some x) (hu : inside u = some y) (apart : t ≠ u) :
    a = settled := by
  refine i.quiet fun v op sec hv => ?_
  by_cases same : v = t
  · subst same
    exact ex v u apart _ y hv hu
  · exact ex v t same _ x hv ht

theorem Inv.turns (i : Inv o start inside a settled done) (ht : inside t = some (op, sec)) :
    ∃ x, o.turn op a sec = .ok x := by
  obtain ⟨out, b, -, leads⟩ := i.ways t op sec ht
  exact leads.turns

/-- A thread takes up an operation. -/
theorem Inv.enter (i : Inv o start inside a settled done)
    (ex : Exclusive o.writes (Function.update inside t (some (op, o.first op))))
    (out : inside t = none) (fine : ∃ r b, o.whole settled op = .ok (r, b)) :
    Inv o start (Function.update inside t (some (op, o.first op))) a settled done := by
  have before (u : Nat) (x : Op × Sec) (hu : inside u = some x) :
      u ≠ t ∧ Function.update inside t (some (op, o.first op)) u = some x := by
    have apart : u ≠ t := by
      rintro rfl
      rw [out] at hu
      cases hu
    exact ⟨apart, by rwa [Function.update_of_ne apart]⟩
  have clean : a = settled := by
    refine i.quiet fun u op' sec hu => ?_
    obtain ⟨apart, hu⟩ := before u _ hu
    exact ex u t apart _ _ hu (Function.update_self t _ _)
  refine ⟨i.linear, fun u op' sec hu => ?_, fun _ => clean⟩
  rw [Function.update_apply] at hu
  split at hu
  · cases hu
    obtain ⟨r, b, whole⟩ := fine
    exact ⟨r, b, whole, clean ▸ o.alone settled op r b whole⟩
  · exact i.ways u op' sec hu

/-- A thread goes on inside. -/
theorem Inv.goes (i : Inv o start inside a settled done) (ex : Exclusive o.writes inside)
    (ht : inside t = some (op, sec)) (turn : o.turn op a sec = .ok (.inl sec', b)) :
    Inv o start (Function.update inside t (some (op, sec'))) b settled done := by
  refine ⟨i.linear, fun u op' sec₁ hu => ?_, fun reads => ?_⟩
  · rw [Function.update_apply] at hu
    split at hu
    · cases hu
      obtain ⟨out, c, whole, leads⟩ := i.ways t op sec ht
      exact ⟨out, c, whole, leads.later turn⟩
    · next apart =>
      have reader := ex t u (Ne.symm apart) _ _ ht hu
      rw [o.reads op a sec _ b reader turn]
      exact i.ways u op' sec₁ hu
  · have reader := reads t op sec' (Function.update_self t _ _)
    rw [o.reads op a sec _ b reader turn]
    refine i.quiet fun u op' sec₁ hu => ?_
    by_cases same : u = t
    · subst same
      rw [ht] at hu
      cases hu
      exact reader
    · exact reads u op' sec₁ (by rwa [Function.update_of_ne same])

/-- A thread makes its last access. -/
theorem Inv.ends (i : Inv o start inside a settled done) (ex : Exclusive o.writes inside)
    (ht : inside t = some (op, sec)) (turn : o.turn op a sec = .ok (.inr out, b)) :
    Inv o start (Function.update inside t none) b b (done ++ [(op, out)]) := by
  obtain ⟨out', c, whole, leads⟩ := i.ways t op sec ht
  obtain ⟨rfl, rfl⟩ := leads.last turn
  refine ⟨?_, fun u op' sec₁ hu => ?_, fun _ => rfl⟩
  · rw [List.map_append, List.map_append]
    exact exec_append i.linear (exec_cons whole rfl)
  · rw [Function.update_apply] at hu
    split at hu
    · cases hu
    · next apart =>
      have reader := ex t u (Ne.symm apart) _ _ ht hu
      have clean := i.clean ex ht hu (Ne.symm apart)
      rw [o.reads op a sec _ _ reader turn]
      obtain ⟨r, d, whole', leads'⟩ := i.ways u op' sec₁ hu
      exact ⟨r, d, clean ▸ whole', leads'⟩

end Lib.Sections
