import Coter.Core.Machine
import Coter.Lib.Lts
import Coter.Lib.Monitor
import Coter.Lib.Sections

/-!
# Atomic operations with a mutex

The fallback of `atomic_mutex.h`: every operation takes one process-wide mutex around plain
accesses. Memory is cells of `w` bits by address. Arithmetic goes modulo `2 ^ w`.

* `Op.body`: the accesses of an operation, one by one;
* `whole`: what the operation is to be;
* `atomic_linear`: every run of any threads is one of whole operations.
-/

namespace Coter.Atomic

open Lib.Lts Lib.Machine Lib.Monitor Lib.Sections

variable {w : Nat}

abbrev Memory (w : Nat) := Nat → BitVec w

inductive Op (w : Nat)
  | testAndSet (ptr : Nat)
  | clear (ptr : Nat)
  | load (ptr : Nat)
  | store (ptr : Nat) (value : BitVec w)
  | exchange (ptr : Nat) (value : BitVec w)
  | compareExchange (ptr : Nat) (expected desired : BitVec w)
  | add (ptr : Nat) (delta : BitVec w)
  | sub (ptr : Nat) (delta : BitVec w)
  deriving DecidableEq, Repr

/-- What an operation returns. An exchange that compares also leaves `*expected`. -/
inductive Out (w : Nat)
  | nothing
  | value (value : BitVec w)
  | compared (ret : Bool) (expected : BitVec w)
  deriving DecidableEq, Repr

/-- The rest of a section: volatile accesses, each with what comes after it. -/
inductive Code (w : Nat)
  | ret (out : Out w)
  | read (ptr : Nat) (next : BitVec w → Code w)
  | write (ptr : Nat) (value : BitVec w) (next : Code w)

/-- What stands between the lock and the unlock. -/
def Op.body : Op w → Code w
  | .testAndSet ptr => .read ptr fun value => .write ptr 1 (.ret (.value value))
  | .clear ptr => .write ptr 0 (.ret .nothing)
  | .load ptr => .read ptr fun value => .ret (.value value)
  | .store ptr value => .write ptr value (.ret .nothing)
  | .exchange ptr value => .read ptr fun old => .write ptr value (.ret (.value old))
  | .compareExchange ptr expected desired => .read ptr fun value =>
    if value = expected then .write ptr desired (.ret (.compared true expected))
    else .read ptr fun value => .ret (.compared false value)
  | .add ptr delta => .read ptr fun value => .read ptr fun again =>
    .write ptr (again + delta) (.ret (.value value))
  | .sub ptr delta => .read ptr fun value => .read ptr fun again =>
    .write ptr (again - delta) (.ret (.value value))

/-- The next access of a section. -/
def Code.turn (m : Memory w) : Code w → Except Fault ((Code w ⊕ Out w) × Memory w)
  | .ret out => .ok (.inr out, m)
  | .read ptr next => .ok (.inl (next (m ptr)), m)
  | .write ptr value next => .ok (.inl next, Function.update m ptr value)

/-- The operation as one step. -/
def whole (m : Memory w) : Op w → Except Fault (Out w × Memory w)
  | .testAndSet ptr => .ok (.value (m ptr), Function.update m ptr 1)
  | .clear ptr => .ok (.nothing, Function.update m ptr 0)
  | .load ptr => .ok (.value (m ptr), m)
  | .store ptr value => .ok (.nothing, Function.update m ptr value)
  | .exchange ptr value => .ok (.value (m ptr), Function.update m ptr value)
  | .compareExchange ptr expected desired =>
    if m ptr = expected then .ok (.compared true expected, Function.update m ptr desired)
    else .ok (.compared false (m ptr), m)
  | .add ptr delta => .ok (.value (m ptr), Function.update m ptr (m ptr + delta))
  | .sub ptr delta => .ok (.value (m ptr), Function.update m ptr (m ptr - delta))

theorem body_leads (m : Memory w) (op : Op w) {out : Out w} {m' : Memory w}
    (h : whole m op = .ok (out, m')) : Leads Code.turn m op.body out m' := by
  cases op with
  | clear ptr | store ptr value =>
    cases h
    exact .goes rfl (.ends rfl)
  | load ptr =>
    cases h
    exact .goes rfl (.ends rfl)
  | testAndSet ptr | exchange ptr value =>
    cases h
    exact .goes rfl (.goes rfl (.ends rfl))
  | compareExchange ptr expected desired =>
    refine .goes rfl ?_
    simp only [whole] at h
    dsimp only
    split at h
    · next same =>
      cases h
      rw [if_pos same]
      exact .goes rfl (.ends rfl)
    · next differs =>
      cases h
      rw [if_neg differs]
      exact .goes rfl (.ends rfl)
  | add ptr delta | sub ptr delta =>
    cases h
    exact .goes rfl (.goes rfl (.goes rfl (.ends rfl)))

/-- Each operation has the memory to itself. -/
def object (w : Nat) : Object (Memory w) (Op w) (Code w) (Out w) Fault where
  whole := whole
  first := Op.body
  turn _ := Code.turn
  writes _ := true
  alone m op _ _ := body_leads m op
  reads _ _ _ _ _ := nofun

/-! ## Threads -/

inductive Pc (w : Nat)
  | outside
  | lock (op : Op w)
  | inside (op : Op w) (code : Code w)
  | unlock

/-- Between the lock and the unlock of `s_mutex`. -/
def Pc.holds : Pc w → Bool
  | .inside .. | .unlock => true
  | .outside | .lock _ => false

def Pc.section : Pc w → Option (Op w × Code w)
  | .inside op code => some (op, code)
  | .outside | .lock _ | .unlock => none

/-- The mutex with the threads, the memory, and the operations whose accesses are over with what
they return, in their order. -/
structure State (w : Nat) where
  m : Threads (Pc w)
  memory : Memory w
  done : List (Op w × Out w)

def start (memory : Memory w) : State w := ⟨.idle .outside, memory, []⟩

inductive Label (w : Nat)
  | call (t : Nat) (op : Op w)
  | turn (t : Nat)
  deriving DecidableEq, Repr

/-- A thread makes the next access of its section. -/
def State.access (s : State w) (t : Nat) (op : Op w) (code : Code w) : Option (State w) :=
  match code.turn s.memory with
  | .ok (.inl code, memory) => some { s with m := s.m.goto t (.inside op code), memory }
  | .ok (.inr out, memory) => some ⟨s.m.goto t .unlock, memory, s.done ++ [(op, out)]⟩
  | .error _ => none

/-- The next state; `none` where the label is not enabled. -/
def step (s : State w) : Label w → Option (State w)
  | .call t op =>
    match s.m.pc t with
    | .outside => some { s with m := s.m.goto t (.lock op) }
    | .lock _ | .inside .. | .unlock => none
  | .turn t =>
    match s.m.pc t with
    | .outside => none
    | .lock op =>
      if s.m.owner = none then some { s with m := s.m.enter t (.inside op op.body) } else none
    | .inside op code => s.access t op code
    | .unlock => some { s with m := s.m.leave t .outside }

/-! ## Runs -/

/-- Everything that is over has been done in one step each. -/
structure Good (memory : Memory w) (s : State w) : Prop where
  linear : ∃ settled, exec whole memory (s.done.map Prod.fst) =
    .ok (s.done.map Prod.snd, settled) ∧ (s.m.owner = none → s.memory = settled)

structure Inv (memory : Memory w) (s : State w) : Prop where
  guarded : Guarded Pc.holds s.m
  sections : ∃ settled, Lib.Sections.Inv (object w) memory (fun t => (s.m.pc t).section) s.memory
    settled s.done

variable {memory : Memory w} {s s' : State w} {t : Nat}

theorem section_holds {pc : Pc w} {x : Op w × Code w} (h : pc.section = some x) :
    pc.holds = true := by
  cases pc with
  | inside op code => rfl
  | outside | lock | unlock => cases h

theorem exclusive (g : Guarded Pc.holds s.m) :
    Exclusive (object w).writes fun t => (s.m.pc t).section := by
  intro t u apart x y ht hu
  exact absurd (g.unique (section_holds hu) (section_holds ht)) apart

theorem update_section (f : Nat → Pc w) (t : Nat) (pc : Pc w) :
    (fun u => (Function.update f t pc u).section) =
      Function.update (fun u => (f u).section) t pc.section := by
  funext u
  by_cases hu : u = t
  · rw [hu, Function.update_self, Function.update_self]
  · rw [Function.update_of_ne hu, Function.update_of_ne hu]

theorem Inv.good (i : Inv memory s) : Good memory s := by
  obtain ⟨settled, sections⟩ := i.sections
  refine ⟨settled, sections.linear, fun free => sections.quiet fun t op code ht => ?_⟩
  have out := i.guarded.free free t
  rw [section_holds ht] at out
  cases out

/-- A thread goes elsewhere outside of its accesses. -/
theorem Inv.aside (i : Inv memory s) {pc : Pc w} {m : Threads (Pc w)}
    (guarded : Guarded Pc.holds m) (hpc : m.pc = Function.update s.m.pc t pc)
    (same : pc.section = (s.m.pc t).section) : Inv memory { s with m } := by
  refine ⟨guarded, ?_⟩
  dsimp only
  rw [hpc, update_section, same, Function.update_eq_self]
  exact i.sections

theorem access_inv (i : Inv memory s) {op : Op w} {code : Code w} (h : s.m.pc t = .inside op code)
    (hstep : s.access t op code = some s') : Inv memory s' := by
  obtain ⟨settled, sections⟩ := i.sections
  have inside : (s.m.pc t).section = some (op, code) := by rw [h]; rfl
  have ex := exclusive i.guarded
  unfold State.access at hstep
  split at hstep
  · next code' memory' turn =>
    cases hstep
    refine ⟨i.guarded.goto (by rw [h]; rfl), settled, ?_⟩
    have goes := sections.goes ex inside turn
    rw [← show (Pc.inside op code').section = some (op, code') from rfl, ← update_section] at goes
    exact goes
  · next out memory' turn =>
    cases hstep
    refine ⟨i.guarded.goto (by rw [h]; rfl), memory', ?_⟩
    have ends := sections.ends ex inside turn
    rw [← show (Pc.unlock : Pc w).section = none from rfl, ← update_section] at ends
    exact ends
  · cases hstep

theorem lock_inv (i : Inv memory s) {op : Op w} (h : s.m.pc t = .lock op)
    (free : s.m.owner = none) : Inv memory { s with m := s.m.enter t (.inside op op.body) } := by
  obtain ⟨settled, sections⟩ := i.sections
  have guarded : Guarded Pc.holds (s.m.enter t (.inside op op.body)) := i.guarded.enter free rfl
  refine ⟨guarded, settled, ?_⟩
  have moved : (fun u => ((s.m.enter t (.inside op op.body)).pc u).section) =
      Function.update (fun u => (s.m.pc u).section) t (some (op, op.body)) := update_section _ _ _
  have ex := exclusive (s := { s with m := s.m.enter t (.inside op op.body) }) guarded
  have fine : ∃ out b, whole settled op = .ok (out, b) := by
    cases op with
    | compareExchange ptr expected desired =>
      simp only [whole]
      split <;> exact ⟨_, _, rfl⟩
    | testAndSet | clear | load | store | exchange | add | sub => exact ⟨_, _, rfl⟩
  dsimp only at ex ⊢
  rw [moved] at ex ⊢
  exact sections.enter ex (by rw [h]; rfl) fine

theorem step_inv {l : Label w} (i : Inv memory s) (hstep : step s l = some s') :
    Inv memory s' := by
  cases l with
  | call t op =>
    cases hp : s.m.pc t with
    | outside =>
      simp only [step, hp, Option.some.injEq] at hstep
      subst hstep
      exact i.aside (i.guarded.goto (by rw [hp]; rfl)) rfl (by rw [hp]; rfl)
    | lock | inside | unlock => simp [step, hp] at hstep
  | turn t =>
    cases hp : s.m.pc t with
    | outside => simp [step, hp] at hstep
    | lock op =>
      simp only [step, hp, Option.ite_none_right_eq_some, Option.some.injEq] at hstep
      obtain ⟨free, rfl⟩ := hstep
      exact lock_inv i hp free
    | inside op code =>
      simp only [step, hp] at hstep
      exact access_inv i hp hstep
    | unlock =>
      simp only [step, hp, Option.some.injEq] at hstep
      subst hstep
      exact i.aside (i.guarded.leave (by rw [hp]; rfl) rfl) rfl (by rw [hp]; rfl)

theorem start_inv (memory : Memory w) : Inv memory (start memory) :=
  ⟨guarded_idle rfl, memory, inv_start fun _ => rfl⟩

/-- **The fallback is atomic.** For cells of any width, any number of threads and over every
interleaving of their accesses, the operations that are over have returned what they return when
each is done in one step, in the order of their sections; and whenever the mutex is free, the
memory is what these steps leave. -/
theorem atomic_linear (memory : Memory w) (ls : List (Label w)) :
    Throughout step (Good memory) (start memory) ls :=
  throughout_of_invariant (fun _ _ _ i h => step_inv i h) (fun _ i => i.good) (start_inv memory) ls

end Coter.Atomic
