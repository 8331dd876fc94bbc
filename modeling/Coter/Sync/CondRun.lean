import Coter.Sync.Cond

/-!
# Runs of timed condition waits

* `step_moves`: what a step can do;
* `kept_iff`: the notifications that a call is told of while it can still time out
  are the ones that it may sleep over;
* `kept_iff_uncut`: over all runs, no call sleeps over a notification exactly if its
  timeout is not cut.
-/

namespace Coter.Cond

open Lib.Lts

/-- What each label does where it is enabled. -/
inductive Moves (p : Platform) (n : Nat) (s : Monitor) : Label → Monitor → Prop
  | tick (ms : Nat) (h : s.clock + ms ≤ int64Max) :
      Moves p n s (.tick ms) { s with clock := s.clock + ms }
  | lock (t : Nat) (ht : t < n) (free : s.owner = none) (h : s.pc t = .outside) :
      Moves p n s (.lock t) { s with owner := some t }
  | unlock (t : Nat) (holds : s.owner = some t) (h : s.pc t = .outside) :
      Moves p n s (.unlock t) { s with owner := none }
  | signal (t : Nat) (woke : Option Nat) (ht : t < n) (h : s.pc t = .outside)
      (may : s.MayWake n woke) :
      Moves p n s (.signal t woke) (s.notify (s.owner = some t) (fun u => woke = some u))
  | broadcast (t : Nat) (ht : t < n) (h : s.pc t = .outside) :
      Moves p n s (.broadcast t) (s.notify (s.owner = some t) (fun _ => true))
  | sleeps (t : Nat) (timeoutMs : Int) (holds : s.owner = some t) (h : s.pc t = .outside)
      (neg : timeoutMs < 0) :
      Moves p n s (.waitFor t timeoutMs) ({ s.enter t with owner := none }.setPc t .sleeping)
  | refuses (t : Nat) (holds : s.owner = some t) (h : s.pc t = .outside) :
      Moves p n s (.waitFor t 0) ((s.enter t).setPc t (.returned .etimedout))
  | begins (t : Nat) (timeoutMs : Int) (holds : s.owner = some t) (h : s.pc t = .outside)
      (pos : 0 < timeoutMs) (small : timeoutMs ≤ int64Max) :
      Moves p n s (.waitFor t timeoutMs)
        ((s.enter t).setPc t (.testing (deadline timeoutMs s.clock)))
  | ends (t lag : Nat) (d : Int) (h : s.pc t = .testing d) (late : d ≤ s.clock) :
      Moves p n s (.test t lag) (s.setPc t (.returned .etimedout))
  | blocks (t lag : Nat) (d : Int) (h : s.pc t = .testing d) (early : s.clock < d)
      (small : s.clock + lag ≤ int64Max) :
      Moves p n s (.test t lag)
        ({ s with
          clock := s.clock + lag
          owner := none
          again := Function.update s.again t (s.again t || s.notified t) }.setPc t
            (.blocked d (s.clock + lag + cut p (d - s.clock))))
  | fails (t : Nat) (errno d : Int) (h : s.pc t = .testing d) (early : s.clock < d) :
      Moves p n s (.fail t errno) (s.setPc t (.returned (.error errno)))
  | expires (t : Nat) (d expiry : Int) (h : s.pc t = .blocked d expiry) (late : expiry ≤ s.clock) :
      Moves p n s (.expire t) (s.setPc t (.woken (some d) .etimedout))
  | wakes (t : Nat) (result : Code) (h : (s.pc t).waits) (hr : result ≠ .etimedout) :
      Moves p n s (.wake t result) (s.setPc t ((s.pc t).wake result))
  | retries (t : Nat) (d : Int) (h : s.pc t = .woken (some d) .etimedout) (free : s.owner = none) :
      Moves p n s (.acquire t) ({ s with owner := some t }.setPc t (.testing d))
  | leaves (t : Nat) (d : Option Int) (result : Code) (h : s.pc t = .woken d result)
      (leaving : (s.pc t).leaving) (free : s.owner = none) :
      Moves p n s (.acquire t) ({ s with owner := some t }.setPc t (.returned result))
  | resumes (t : Nat) (result : Code) (h : s.pc t = .returned result) :
      Moves p n s (.resume t) (s.setPc t .outside)

variable {p : Platform} {n : Nat} {s t : Monitor} {l : Label}

theorem step_moves (h : step p n s l = some t) : Moves p n s l t := by
  cases l with
  | tick ms =>
    obtain ⟨hc, rfl⟩ := by simpa [step] using h
    exact .tick ms hc
  | lock u =>
    obtain ⟨⟨hu, free, hpc⟩, rfl⟩ := by simpa [step] using h
    exact .lock u hu free hpc
  | unlock u =>
    obtain ⟨⟨holds, hpc⟩, rfl⟩ := by simpa [step] using h
    exact .unlock u holds hpc
  | signal u woke =>
    simp only [step] at h
    split at h
    · rename_i hu
      obtain rfl := Option.some.inj h
      exact .signal u woke hu.1 hu.2.1 hu.2.2
    · cases h
  | broadcast u =>
    simp only [step] at h
    split at h
    · rename_i hu
      obtain rfl := Option.some.inj h
      exact .broadcast u hu.1 hu.2
    · cases h
  | waitFor u timeoutMs =>
    simp only [step] at h
    split at h
    · rename_i hu
      obtain ⟨holds, hpc, small⟩ := hu
      split at h
      · rename_i neg
        obtain rfl := Option.some.inj h
        exact .sleeps u timeoutMs holds hpc neg
      · rename_i nonneg
        split at h
        · rename_i zero
          obtain rfl := Option.some.inj h
          subst zero
          exact .refuses u holds hpc
        · rename_i nonzero
          obtain rfl := Option.some.inj h
          exact .begins u timeoutMs holds hpc (by omega) small
    · cases h
  | test u lag =>
    simp only [step] at h
    split at h
    · rename_i d hpc
      split at h
      · rename_i late
        obtain rfl := Option.some.inj h
        exact .ends u lag d hpc late
      · rename_i early
        split at h
        · rename_i small
          obtain rfl := Option.some.inj h
          exact .blocks u lag d hpc (by omega) small
        · cases h
    · cases h
  | fail u errno =>
    simp only [step] at h
    split at h
    · rename_i d hpc
      split at h
      · rename_i early
        obtain rfl := Option.some.inj h
        exact .fails u errno d hpc early
      · cases h
    · cases h
  | expire u =>
    simp only [step] at h
    split at h
    · rename_i d expiry hpc
      split at h
      · rename_i late
        obtain rfl := Option.some.inj h
        exact .expires u d expiry hpc late
      · cases h
    · cases h
  | wake u result =>
    simp only [step] at h
    split at h
    · rename_i hu
      obtain rfl := Option.some.inj h
      exact .wakes u result hu.1 hu.2
    · cases h
  | acquire u =>
    simp only [step] at h
    split at h
    · rename_i d result hpc
      split at h
      · rename_i free
        cases d with
        | none =>
          obtain rfl := Option.some.inj h
          exact .leaves u none result hpc (by rw [hpc]; rfl) free
        | some d =>
          dsimp only at h
          split at h
          · rename_i hr
            obtain rfl := Option.some.inj h
            exact .leaves u (some d) result hpc (by simpa [hpc, Pc.leaving] using hr) free
          · rename_i hr
            obtain rfl := Option.some.inj h
            obtain rfl := not_not.1 hr
            exact .retries u d hpc free
      · cases h
    · cases h
  | resume u =>
    simp only [step] at h
    split at h
    · rename_i result hpc
      obtain rfl := Option.some.inj h
      exact .resumes u result hpc
    · cases h

/-! ## Notifications -/

/-- The call may wait again. -/
def Pc.retries : Pc → Bool
  | .testing _ | .blocked .. => true
  | .woken (some _) result => result = .etimedout
  | .outside | .sleeping | .woken none _ | .returned _ => false

/-- The loop is about to wait. -/
def Pc.timeLeft (clock : Int) : Pc → Bool
  | .testing deadline => clock < deadline
  | .outside | .sleeping | .blocked .. | .woken .. | .returned _ => false

/-- No call waits again after a notification. -/
def Kept (s : Monitor) : Prop := ∀ t, s.again t = false

/-- No notification has come while the slice was over, or for another thread, when
the loop is about to wait. -/
def Undisturbed (s : Monitor) : Label → Prop
  | .test t _ => (s.pc t).timeLeft s.clock → s.missed t = false
  | _ => True

instance (s : Monitor) : DecidablePred (Undisturbed s)
  | .test .. => inferInstanceAs (Decidable (_ → _))
  | .tick _ | .lock _ | .unlock _ | .signal .. | .broadcast _ | .waitFor .. | .fail .. | .expire _
  | .wake .. | .acquire _ | .resume _ => inferInstanceAs (Decidable True)

/-- What is recorded for a thread. -/
structure Fine (s : Monitor) (t : Nat) : Prop where
  kept : s.again t = false
  told : s.missed t → s.notified t
  heard : (s.pc t).retries → s.notified t → s.missed t

theorem retries_of_wake {pc : Pc} {result : Code} (h : (pc.wake result).retries) :
    pc.retries := by
  cases pc with
  | blocked => rfl
  | sleeping => cases h
  | outside | testing | woken | returned => exact h

theorem leaving_of_retries {pc : Pc} (h : pc.retries) : pc.leaving = false := by
  cases pc with
  | woken d result =>
    cases d with
    | none => cases h
    | some d => simpa [Pc.retries, Pc.leaving] using h
  | outside | testing | sleeping | blocked | returned => rfl

theorem fine_setPc (hi : ∀ u, Fine s u) (t : Nat) {pc : Pc}
    (h : pc.retries → s.notified t → s.missed t) : ∀ u, Fine (s.setPc t pc) u := by
  intro u
  refine ⟨(hi u).kept, (hi u).told, ?_⟩
  by_cases hu : u = t
  · subst hu
    simpa [Monitor.setPc] using h
  · simpa [Monitor.setPc, hu] using (hi u).heard

theorem fine_enter (hi : ∀ u, Fine s u) (t : Nat) : ∀ u, Fine (s.enter t) u := by
  intro u
  by_cases hu : u = t
  · subst hu
    refine ⟨(hi u).kept, ?_, ?_⟩ <;> simp [Monitor.enter]
  · refine ⟨(hi u).kept, ?_, ?_⟩
    · simpa [Monitor.enter, hu] using (hi u).told
    · simpa [Monitor.enter, hu] using (hi u).heard

theorem fine_notify (hi : ∀ u, Fine s u) (holds : Bool) (chosen : Nat → Bool) :
    ∀ u, Fine (s.notify holds chosen) u := by
  intro u
  have told := (hi u).told
  have heard := (hi u).heard
  refine ⟨(hi u).kept, ?_, ?_⟩
  · simp only [Monitor.notify, Bool.or_eq_true, Bool.and_eq_true]
    rintro (h | ⟨h, -⟩)
    · exact .inl (told h)
    · exact .inr h
  · simp only [Monitor.notify, Bool.or_eq_true, Bool.and_eq_true]
    intro hretries hnotified
    have before : (s.pc u).retries := by
      split at hretries
      · exact retries_of_wake hretries
      · exact hretries
    rcases hnotified with h | h
    · exact .inl (heard before h)
    · exact .inr ⟨h, by simp [leaving_of_retries hretries]⟩

theorem fine_step (hi : ∀ u, Fine s u) (hc : Undisturbed s l) (h : step p n s l = some t) :
    ∀ u, Fine t u := by
  have clocked (c : Int) (o : Option Nat) : ∀ u, Fine { s with clock := c, owner := o } u :=
    fun u => ⟨(hi u).kept, (hi u).told, (hi u).heard⟩
  cases step_moves h with
  | tick | lock | unlock => exact clocked _ _
  | signal | broadcast => exact fine_notify hi _ _
  | sleeps v =>
    have entered (o : Option Nat) : ∀ u, Fine { s.enter v with owner := o } u := by
      intro u
      have := fine_enter hi v u
      exact ⟨this.kept, this.told, this.heard⟩
    exact fine_setPc (entered none) v (by simp [Pc.retries])
  | refuses v => exact fine_setPc (fine_enter hi v) v (by simp [Pc.retries])
  | begins v => exact fine_setPc (fine_enter hi v) v (by simp [Monitor.enter])
  | ends v | fails v | resumes v => exact fine_setPc hi v (by simp [Pc.retries])
  | blocks v lag d hpc early =>
    have missed : s.missed v = false := hc (by simpa [hpc, Pc.timeLeft] using early)
    have quiet : s.notified v = false := by
      by_contra told
      have := (hi v).heard (by rw [hpc]; rfl) (by simpa using told)
      rw [missed] at this
      cases this
    have again : Function.update s.again v (s.again v || s.notified v) = s.again := by
      rw [quiet, Bool.or_false, Function.update_eq_self]
    rw [again]
    exact fine_setPc (clocked _ _) v (fun _ => (hi v).heard (by rw [hpc]; rfl))
  | expires v d expiry hpc =>
    exact fine_setPc hi v (fun _ => (hi v).heard (by rw [hpc]; rfl))
  | wakes v =>
    exact fine_setPc hi v (fun hretries => (hi v).heard (retries_of_wake hretries))
  | retries v d hpc =>
    exact fine_setPc (clocked _ _) v (fun _ => (hi v).heard (by rw [hpc]; rfl))
  | leaves v => exact fine_setPc (clocked _ _) v (by simp [Pc.retries])

/-- The step after which the property fails. -/
theorem undisturbed_of_kept (hi : ∀ u, Fine s u) (h : step p n s l = some t) (kept : Kept t) :
    Undisturbed s l := by
  cases step_moves h with
  | blocks v lag d hpc early =>
    intro _
    have again := kept v
    have quiet : s.notified v = false := by
      simp only [Monitor.setPc, Function.update_self, Bool.or_eq_false_iff] at again
      exact again.2
    by_contra missed
    have := (hi v).told (by simpa using missed)
    rw [quiet] at this
    cases this
  | ends v lag d hpc late =>
    intro early
    simp only [hpc, Pc.timeLeft, decide_eq_true_eq] at early
    omega
  | tick | lock | unlock | signal | broadcast | sleeps | refuses | begins | fails | expires | wakes
  | retries | leaves | resumes => trivial

theorem init_fine : ∀ u, Fine init u := by
  intro u
  exact ⟨rfl, id, fun _ => id⟩

/-- No call waits again after a notification in exactly the runs in which the loop
finds, whenever it is about to wait, that no notification has gone past it. -/
theorem kept_iff (ls : List Label) :
    Throughout (step p n) Kept init ls ↔ EachStep (step p n) Undisturbed init ls :=
  throughout_iff_eachStep (I := fun s => ∀ u, Fine s u) (fun _ _ _ hi hc h => fine_step hi hc h)
    (fun _ hi u => (hi u).kept) (fun _ _ _ hi h kept => undisturbed_of_kept hi h kept) init_fine ls

/-! ## Timeouts that are not cut -/

/-- The lower-level wait lasts as long as it is asked to. -/
def Uncut (p : Platform) (timeoutMs : Int) : Prop := cut p timeoutMs = timeoutMs

instance (p : Platform) : DecidablePred (Uncut p) := fun _ => inferInstanceAs (Decidable (_ = _))

theorem Uncut.mono {a b : Int} (h : Uncut p b) (hab : a ≤ b) : Uncut p a := by
  cases p with
  | windows | timedwait =>
    simp only [Uncut, cut] at h ⊢
    omega
  | darwin | clockwait => rfl

theorem uncut_of_le_zero {a : Int} (h : a ≤ 0) : Uncut p a := by
  cases p with
  | windows | timedwait =>
    simp only [Uncut, cut]
    omega
  | darwin | clockwait => rfl

theorem cut_of_not_uncut {a : Int} (h : ¬ Uncut p a) : 0 < cut p a ∧ cut p a < a := by
  cases p with
  | windows | timedwait =>
    simp only [Uncut, cut] at h ⊢
    omega
  | darwin | clockwait => exact absurd rfl h

/-- A wait that is over has reached the deadline of its call. -/
def Pc.Timely (p : Platform) (clock : Int) (missed : Bool) : Pc → Prop
  | .testing deadline => Uncut p (deadline - clock) ∧ (clock < deadline → missed = false)
  | .blocked deadline expiry => deadline ≤ expiry
  | .woken (some deadline) .etimedout => deadline ≤ clock
  | _ => True

def Timely (p : Platform) (s : Monitor) (t : Nat) : Prop :=
  (s.pc t).Timely p s.clock (s.missed t)

theorem Pc.Timely.later {c c' : Int} {missed : Bool} {pc : Pc} (h : pc.Timely p c missed)
    (hc : c ≤ c') : pc.Timely p c' missed := by
  cases pc with
  | testing d =>
    refine ⟨h.1.mono (by omega), ?_⟩
    intro early
    exact h.2 (by omega)
  | blocked => exact h
  | woken d result =>
    cases d with
    | none => trivial
    | some d =>
      cases result with
      | etimedout => exact Int.le_trans h hc
      | ok | einval | epipe | eagain | error => trivial
  | outside | sleeping | returned => trivial

theorem timely_setPc (hi : ∀ u, Timely p s u) (v : Nat) {pc : Pc}
    (h : pc.Timely p s.clock (s.missed v)) : ∀ u, Timely p (s.setPc v pc) u := by
  intro u
  by_cases hu : u = v
  · subst hu
    simpa [Timely, Monitor.setPc] using h
  · simpa [Timely, Monitor.setPc, hu] using hi u

theorem timely_enter (hi : ∀ u, Timely p s u) (v : Nat) (h : s.pc v = .outside) :
    ∀ u, Timely p (s.enter v) u := by
  intro u
  by_cases hu : u = v
  · subst hu
    simp [Timely, Monitor.enter, h, Pc.Timely]
  · simpa [Timely, Monitor.enter, hu] using hi u

theorem timely_wake {pc : Pc} {result : Code} {c : Int} {missed : Bool} (h : pc.waits)
    (hr : result ≠ .etimedout) : (pc.wake result).Timely p c missed := by
  cases pc with
  | blocked d expiry =>
    cases result with
    | etimedout => exact absurd rfl hr
    | ok | einval | epipe | eagain | error => trivial
  | sleeping => trivial
  | outside | testing | woken | returned => cases h

/-- Without the mutex it does not matter what the thread missed. -/
theorem Pc.Timely.of_released {c : Int} {m m' : Bool} {pc : Pc} (hr : pc.released)
    (h : pc.Timely p c m) : pc.Timely p c m' := by
  cases pc with
  | testing => cases hr
  | woken d result => cases d <;> cases result <;> exact h
  | outside | sleeping | blocked | returned => exact h

theorem released_of_waits {pc : Pc} (h : pc.waits) : pc.released := by
  cases pc with
  | sleeping | blocked => rfl
  | outside | testing | woken | returned => cases h

theorem wake_of_not_waits {pc : Pc} (h : pc.waits = false) (result : Code) :
    pc.wake result = pc := by
  cases pc with
  | sleeping | blocked => cases h
  | outside | testing | woken | returned => rfl

theorem notify_missed {u : Nat} (h : (s.pc u).released = false) (holds : Bool)
    (chosen : Nat → Bool) : (s.notify holds chosen).missed u = s.missed u := by
  simp [Monitor.notify, h]

theorem timely_notify (hi : ∀ u, Timely p s u) (holds : Bool) (chosen : Nat → Bool) :
    ∀ u, Timely p (s.notify holds chosen) u := by
  intro u
  change Pc.Timely p s.clock _ (if chosen u then (s.pc u).wake .ok else s.pc u)
  cases hw : (s.pc u).waits with
  | true =>
    split
    · exact timely_wake hw (by decide)
    · exact (hi u).of_released (released_of_waits hw)
  | false =>
    rw [wake_of_not_waits hw, ite_self]
    cases hr : (s.pc u).released with
    | true => exact (hi u).of_released hr
    | false =>
      rw [notify_missed hr]
      exact hi u

/-- The call is made with a timeout that is not cut. -/
def Label.Whole (p : Platform) : Label → Prop
  | .waitFor _ timeoutMs => timeoutMs ≤ int64Max → Uncut p timeoutMs
  | _ => True

theorem timely_step (hi : ∀ u, Timely p s u) (hl : l.Whole p) (h : step p n s l = some t) :
    ∀ u, Timely p t u := by
  have later {c : Int} (hc : s.clock ≤ c) (o : Option Nat) (again : Nat → Bool) :
      ∀ u, Timely p { s with clock := c, owner := o, again } u :=
    fun u => (hi u).later hc
  cases step_moves h with
  | tick ms => exact later (by omega) _ _
  | lock | unlock => exact later (Int.le_refl _) _ _
  | signal | broadcast => exact timely_notify hi _ _
  | sleeps v timeoutMs holds hpc =>
    have entered (o : Option Nat) : ∀ u, Timely p { s.enter v with owner := o } u :=
      timely_enter hi v hpc
    exact timely_setPc (entered none) v trivial
  | refuses v holds hpc => exact timely_setPc (timely_enter hi v hpc) v trivial
  | begins v timeoutMs holds hpc pos small =>
    apply timely_setPc (timely_enter hi v hpc) v
    constructor
    · apply Uncut.mono (hl small)
      change deadline timeoutMs s.clock - s.clock ≤ timeoutMs
      unfold deadline
      split <;> omega
    · intro _
      simp [Monitor.enter]
  | ends v | fails v | resumes v => exact timely_setPc hi v trivial
  | blocks v lag d hpc early =>
    have whole : cut p (d - s.clock) = d - s.clock := by
      have := hi v
      unfold Timely at this
      rw [hpc] at this
      exact this.1
    apply timely_setPc (later (by omega) _ _) v
    change d ≤ s.clock + lag + cut p (d - s.clock)
    omega
  | expires v d expiry hpc late =>
    have reached : d ≤ expiry := by
      have := hi v
      unfold Timely at this
      rwa [hpc] at this
    exact timely_setPc hi v (Int.le_trans reached late)
  | wakes v result hpc hr => exact timely_setPc hi v (timely_wake hpc hr)
  | retries v d hpc =>
    have reached : d ≤ s.clock := by
      have := hi v
      unfold Timely at this
      rwa [hpc] at this
    apply timely_setPc (later (Int.le_refl _) _ _) v
    refine ⟨uncut_of_le_zero ?_, ?_⟩
    · change d - s.clock ≤ 0
      omega
    · intro early
      change s.clock < d at early
      omega
  | leaves v => exact timely_setPc (later (Int.le_refl _) _ _) v trivial

theorem undisturbed_of_timely (hi : ∀ u, Timely p s u) : Undisturbed s l := by
  cases l with
  | test v lag =>
    intro early
    have before := hi v
    unfold Timely at before
    cases hpc : s.pc v with
    | testing d =>
      rw [hpc] at before early
      exact before.2 (by simpa [Pc.timeLeft] using early)
    | outside | sleeping | blocked | woken | returned =>
      rw [hpc] at early
      cases early
  | tick | lock | unlock | signal | broadcast | waitFor | fail | expire | wake | acquire | resume =>
    trivial

/-- The waiter's slice is over before its call; then a notification comes while
the waiter does not have the mutex back. -/
def swallowed (p : Platform) (timeoutMs : Int) : List Label :=
  [.lock 0, .waitFor 0 timeoutMs, .test 0 0, .tick (cut p timeoutMs).toNat, .expire 0, .lock 1,
    .broadcast 1, .unlock 1, .acquire 0, .test 0 0]

theorem swallowed_again (hn : 1 < n) {timeoutMs : Int} (small : timeoutMs ≤ int64Max)
    (hcut : ¬ Uncut p timeoutMs) :
    ∃ s, run (step p n) init (swallowed p timeoutMs) = some s ∧ s.again 0 = true := by
  obtain ⟨pos, less⟩ := cut_of_not_uncut hcut
  have hdeadline : deadline timeoutMs 0 = timeoutMs := by
    unfold deadline
    rw [if_neg (by omega), Int.zero_add]
  have hclock : ((cut p timeoutMs).toNat : Int) = cut p timeoutMs := by omega
  have positive : ¬ timeoutMs < 0 ∧ timeoutMs ≠ 0 ∧ ¬ timeoutMs ≤ 0 := by omega
  have fits : (0 : Int) ≤ int64Max ∧ cut p timeoutMs ≤ int64Max := by omega
  have early : ¬ timeoutMs ≤ cut p timeoutMs := by omega
  simp [swallowed, run, step, init, Monitor.setPc, Monitor.enter, Monitor.notify, hdeadline,
    hclock, small, hn, Nat.lt_of_succ_lt hn, positive, fits, early, Pc.wake, Pc.released]

theorem init_timely : ∀ u, Timely p init u := fun _ => trivial

theorem undisturbed_of_whole {ls : List Label} (h : ∀ l ∈ ls, l.Whole p) :
    EachStep (step p n) Undisturbed init ls :=
  eachStep_mono (I := fun s => ∀ u, Timely p s u) (D := fun _ l => l.Whole p)
    (fun _ _ _ hi hl hstep => timely_step hi hl hstep) (fun _ _ hi _ => undisturbed_of_timely hi)
    init_timely (eachStep_of_forall h)

/-- The timeouts for which no call sleeps over a notification in any run. -/
theorem kept_iff_uncut (hn : 1 < n) (allowed : Int → Prop) :
    (∀ ls, (∀ t timeoutMs, .waitFor t timeoutMs ∈ ls → allowed timeoutMs) →
      Throughout (step p n) Kept init ls) ↔
    ∀ timeoutMs ≤ int64Max, allowed timeoutMs → Uncut p timeoutMs := by
  constructor
  · intro kept timeoutMs small ok
    by_contra hcut
    obtain ⟨s, hrun, hagain⟩ := swallowed_again hn small hcut
    have := throughout_last (kept (swallowed p timeoutMs) ?_) hrun 0
    · rw [hagain] at this
      cases this
    · intro t timeoutMs' hmem
      simp only [swallowed, List.mem_cons, reduceCtorEq, Label.waitFor.injEq, List.not_mem_nil,
        or_false, false_or] at hmem
      exact hmem.2 ▸ ok
  · intro uncut ls hls
    apply (kept_iff ls).2
    apply undisturbed_of_whole
    intro l hl
    cases l with
    | waitFor t timeoutMs => exact fun small => uncut timeoutMs small (hls t timeoutMs hl)
    | tick | lock | unlock | signal | broadcast | test | fail | expire | wake | acquire | resume =>
      trivial

end Coter.Cond
