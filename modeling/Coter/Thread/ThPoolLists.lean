import Coter.Thread.ThPoolRun

/-!
# The lists and counts of the thread pool

* `Lists`: every worker that was created and not joined is on one list, once;
* `step_sound`, `step_joins`, `step_submits`: what a step does to the lists and counts,
  whom it joins, and what it does for a submission;
* `pool_lists`: lists and counts over all runs.
-/

namespace Coter.ThPool

open Lib.Counting

/-- The private list of a worker inside `thpool_worker_retire`. -/
def WorkerPc.stale : WorkerPc → List Nat
  | .joining stale => stale
  | _ => []

/-- How often a worker is on a private list. -/
def onStale (live : List Nat) (workers : Nat → WorkerPc) (w : Nat) : Nat :=
  (live.map fun v => (workers v).stale.count w).sum

/-- How often a worker is on a list. -/
def places (live retired : List Nat) (workers : Nat → WorkerPc) (w : Nat) : Nat :=
  live.count w + retired.count w + onStale live workers w

/-- The worker was created and has not been joined. -/
def WorkerPc.unjoined (pc : WorkerPc) : Bool := pc ≠ .absent && pc ≠ .joined

/-- Each worker is on one list from its creation until it is joined. -/
structure Lists (live retired : List Nat) (created : Nat) (workers : Nat → WorkerPc) : Prop where
  onLive : ∀ w, w ∈ live ↔ (workers w).onLive
  absent : ∀ w, workers w = .absent ↔ created ≤ w
  placed : ∀ w, places live retired workers w = if (workers w).unjoined then 1 else 0

variable {live retired : List Nat} {created : Nat} {workers : Nat → WorkerPc}

theorem Lists.nodup (h : Lists live retired created workers) : live.Nodup := by
  rw [List.nodup_iff_count_le_one]
  intro w
  have := h.placed w
  unfold places at this
  split at this <;> omega

/-- One worker moves. -/
def moved (workers : Nat → WorkerPc) (w : Nat) (pc : WorkerPc) : Nat → WorkerPc :=
  fun v => if v = w then pc else workers v

theorem moved_self (w : Nat) (pc : WorkerPc) : moved workers w pc w = pc := if_pos rfl

theorem moved_of_ne {v w : Nat} (h : v ≠ w) (pc : WorkerPc) :
    moved workers w pc v = workers v := if_neg h

theorem onStale_moved (workers : Nat → WorkerPc) (hl : live.Nodup) {w : Nat} (hw : w ∈ live)
    (pc : WorkerPc) (x : Nat) :
    onStale live (moved workers w pc) x + (workers w).stale.count x =
      onStale live workers x + pc.stale.count x :=
  sum_replace hl (fun pc => pc.stale.count x) workers hw pc

theorem onStale_off (workers : Nat → WorkerPc) {w : Nat} (hw : w ∉ live) (pc : WorkerPc)
    (x : Nat) :
    onStale live (moved workers w pc) x = onStale live workers x :=
  sum_replace_off (fun pc : WorkerPc => pc.stale.count x) workers hw pc

theorem unjoined_of_onLive {pc : WorkerPc} (h : pc.onLive) : pc.unjoined := by
  cases pc <;> simp [WorkerPc.onLive] at h <;> rfl

theorem Lists.onLive_moved (h : Lists live retired created workers) {w : Nat} {pc : WorkerPc}
    (hfrom : (workers w).onLive) (hto : pc.onLive) (v : Nat) :
    v ∈ live ↔ (moved workers w pc v).onLive := by
  by_cases hv : v = w
  · subst hv
    rw [moved_self]
    exact iff_of_true ((h.onLive v).2 hfrom) hto
  · rw [moved_of_ne hv]
    exact h.onLive v

/-- A worker that exists keeps existing. -/
theorem Lists.absent_moved (h : Lists live retired created workers) {w : Nat} {pc : WorkerPc}
    (hfrom : (workers w).unjoined) (hto : pc ≠ .absent) (v : Nat) :
    moved workers w pc v = .absent ↔ created ≤ v := by
  by_cases hv : v = w
  · subst hv
    simp only [WorkerPc.unjoined, Bool.and_eq_true, decide_eq_true_eq] at hfrom
    rw [moved_self]
    exact iff_of_false hto (fun hc => hfrom.1 ((h.absent v).2 hc))
  · rw [moved_of_ne hv]
    exact h.absent v

/-- A live worker moves and takes its private list along. -/
theorem Lists.move (h : Lists live retired created workers) {w : Nat} {pc : WorkerPc}
    (hfrom : (workers w).onLive) (hto : pc.onLive) (hstale : pc.stale = (workers w).stale) :
    Lists live retired created (moved workers w pc) := by
  have hw := (h.onLive w).2 hfrom
  have present := unjoined_of_onLive hfrom
  have remains := unjoined_of_onLive hto
  constructor
  · exact h.onLive_moved hfrom hto
  · exact h.absent_moved present (by rintro rfl; cases hto)
  · intro v
    have stale := onStale_moved workers h.nodup hw pc v
    rw [hstale] at stale
    have placed := h.placed v
    unfold places at placed ⊢
    by_cases hv : v = w
    · subst hv
      rw [moved_self, if_pos remains]
      rw [if_pos present] at placed
      omega
    · rw [moved_of_ne hv]
      omega

/-- All workers move, none of them from one list to another. -/
theorem Lists.wake (h : Lists live retired created workers) :
    Lists live retired created (fun w => (workers w).wake) := by
  have stale (pc : WorkerPc) : pc.wake.stale = pc.stale := by cases pc <;> rfl
  have unjoined (pc : WorkerPc) : pc.wake.unjoined = pc.unjoined := by cases pc <;> rfl
  constructor
  · intro w
    rw [wake_onLive]
    exact h.onLive w
  · intro w
    rw [wake_absent]
    exact h.absent w
  · intro w
    simp only [places, onStale, stale, unjoined]
    exact h.placed w

/-- A new worker starts on the live list. -/
theorem Lists.create (h : Lists live retired created workers) :
    Lists (live ++ [created]) retired (created + 1) (moved workers created .starting) := by
  have habsent := (h.absent created).2 (Nat.le_refl _)
  have hoff : created ∉ live := by simp [h.onLive, habsent, WorkerPc.onLive]
  constructor
  · intro v
    by_cases hv : v = created
    · subst hv
      simp [moved_self, WorkerPc.onLive]
    · simp [moved_of_ne hv, hv, h.onLive v]
  · intro v
    by_cases hv : v = created
    · subst hv
      simp [moved_self]
    · rw [moved_of_ne hv, h.absent v]
      omega
  · intro v
    have placed := h.placed v
    have stale : onStale (live ++ [created]) (moved workers created .starting) v =
        onStale live workers v := by
      rw [← onStale_off workers hoff .starting v]
      simp [onStale, moved_self, WorkerPc.stale]
    unfold places at placed ⊢
    rw [stale, List.count_append]
    by_cases hv : v = created
    · subst hv
      rw [moved_self]
      rw [habsent] at placed
      simp only [WorkerPc.unjoined] at placed ⊢
      simp at placed ⊢
      omega
    · rw [moved_of_ne hv, List.count_singleton]
      simpa [Ne.symm hv] using placed

/-- A worker leaves the live list for the retired list. -/
theorem Lists.leave (h : Lists live retired created workers) {w : Nat}
    (hfrom : (workers w).onLive) (hstale : (workers w).stale = []) :
    Lists (live.erase w) (retired ++ [w]) created (moved workers w .exited) := by
  have hw := (h.onLive w).2 hfrom
  have hoff : w ∉ live.erase w := h.nodup.not_mem_erase
  have present := unjoined_of_onLive hfrom
  constructor
  · intro v
    by_cases hv : v = w
    · subst hv
      simp [moved_self, hoff, WorkerPc.onLive]
    · rw [moved_of_ne hv, List.mem_erase_of_ne hv]
      exact h.onLive v
  · exact h.absent_moved present (by simp)
  · intro v
    have placed := h.placed v
    have erased := sum_erase_mem (fun u => (workers u).stale.count v) hw
    have stale : onStale (live.erase w) (moved workers w .exited) v = onStale live workers v := by
      rw [onStale_off workers hoff]
      simpa [onStale, hstale] using erased
    unfold places at placed ⊢
    rw [stale, List.count_append, List.count_singleton]
    by_cases hv : v = w
    · subst hv
      rw [moved_self]
      rw [if_pos present] at placed
      have := List.count_pos_iff.2 hw
      simp only [List.count_erase_self, BEq.rfl, if_true, WorkerPc.unjoined]
      simp
      omega
    · rw [moved_of_ne hv, List.count_erase_of_ne hv]
      simpa [Ne.symm hv] using placed

/-- A retiring worker takes over the retired list. -/
theorem Lists.takeStale (h : Lists live retired created workers) {w : Nat}
    (hfrom : (workers w).onLive) (hstale : (workers w).stale = []) :
    Lists live [] created (moved workers w (.joining retired)) := by
  have hw := (h.onLive w).2 hfrom
  have present := unjoined_of_onLive hfrom
  constructor
  · exact h.onLive_moved hfrom rfl
  · exact h.absent_moved present (by simp)
  · intro v
    have placed := h.placed v
    have stale := onStale_moved workers h.nodup hw (.joining retired) v
    rw [hstale, List.count_nil] at stale
    change _ = _ + retired.count v at stale
    unfold places at placed ⊢
    rw [List.count_nil]
    by_cases hv : v = w
    · subst hv
      rw [moved_self, if_pos (by rfl)]
      rw [if_pos present] at placed
      omega
    · rw [moved_of_ne hv]
      omega

theorem places_pos_exited (h : Lists live retired created workers) {v : Nat}
    (hv : workers v = .exited) : v ∉ live := by
  simp [h.onLive, hv, WorkerPc.onLive]

/-- A worker is joined and taken off its list. -/
theorem Lists.joined (h : Lists live retired created workers) {v : Nat} {retired' : List Nat}
    {workers' : Nat → WorkerPc} (hv : workers v = .exited) (hself : workers' v = .joined)
    (hlive : ∀ u, u ≠ v → ((workers' u).onLive ↔ (workers u).onLive) ∧
      (workers' u = .absent ↔ workers u = .absent) ∧
      (workers' u).unjoined = (workers u).unjoined)
    (hplaces : ∀ x, places live retired' workers' x + (if x = v then 1 else 0) =
      places live retired workers x) : Lists live retired' created workers' := by
  constructor
  · intro u
    by_cases hu : u = v
    · subst hu
      simp [hself, places_pos_exited h hv, WorkerPc.onLive]
    · rw [(hlive u hu).1]
      exact h.onLive u
  · intro u
    by_cases hu : u = v
    · subst hu
      have := h.absent u
      rw [hv] at this
      rw [hself]
      simpa using this
    · rw [(hlive u hu).2.1]
      exact h.absent u
  · intro u
    have placed := h.placed u
    have := hplaces u
    by_cases hu : u = v
    · subst hu
      rw [hv] at placed
      rw [hself]
      simp [WorkerPc.unjoined] at placed this ⊢
      omega
    · rw [(hlive u hu).2.2]
      simp only [hu, if_false] at this
      omega

/-! ## Sections -/

/-- Lists and counts whenever the lock is free. -/
structure Sound (cfg : Config) (s : State) : Prop where
  lists : Lists s.live s.retired s.created s.workers
  liveCount : s.liveCount = s.live.length
  capacity : cfg.capacity ≠ 0 → s.liveCount ≤ cfg.capacity
  queued : s.queuedCount = s.queue.length
  room : cfg.maxTasks ≠ 0 → s.queuedCount ≤ cfg.maxTasks
  closing : s.destroy ≠ .idle → s.destroy ≠ .called → s.closed = true
  drained : s.destroy = .joining ∨ s.destroy = .done → s.live = []
  emptied : s.destroy = .done → s.retired = []

variable {cfg : Config} {s : State}

theorem Sound.broadcastSlot (h : Sound cfg s) : Sound cfg s.broadcastSlot where
  lists := h.lists
  liveCount := h.liveCount
  capacity := h.capacity
  queued := h.queued
  room := h.room
  closing hi hc := by
    simp only [State.broadcastSlot, ne_eq] at hi hc
    rw [wake_destroy (by decide) (by decide)] at hi hc
    exact h.closing hi hc
  drained hd := by
    simp only [State.broadcastSlot] at hd
    rw [wake_destroy (by decide) (by decide), wake_destroy (by decide) (by decide)] at hd
    exact h.drained hd
  emptied hd := by
    simp only [State.broadcastSlot] at hd
    rw [wake_destroy (by decide) (by decide)] at hd
    exact h.emptied hd

theorem Sound.broadcastTask (h : Sound cfg s) : Sound cfg s.broadcastTask :=
  ⟨h.lists.wake, h.liveCount, h.capacity, h.queued, h.room, h.closing, h.drained, h.emptied⟩

theorem Sound.setSubmit (h : Sound cfg s) (t : Nat) (pc : SubmitPc) :
    Sound cfg (s.setSubmit t pc) :=
  ⟨h.lists, h.liveCount, h.capacity, h.queued, h.room, h.closing, h.drained, h.emptied⟩

theorem Sound.setBlocked (h : Sound cfg s) (n : Nat) : Sound cfg { s with blockedCount := n } :=
  ⟨h.lists, h.liveCount, h.capacity, h.queued, h.room, h.closing, h.drained, h.emptied⟩

theorem Sound.move (h : Sound cfg s) {w : Nat} {pc : WorkerPc} (hfrom : (s.workers w).onLive)
    (hto : pc.onLive) (hstale : pc.stale = (s.workers w).stale) : Sound cfg (s.setWorker w pc) :=
  ⟨h.lists.move hfrom hto hstale, h.liveCount, h.capacity, h.queued, h.room, h.closing, h.drained,
    h.emptied⟩

theorem setWorker_same (s : State) (w : Nat) : s.setWorker w (s.workers w) = s := by
  have : (fun v => if v = w then s.workers w else s.workers v) = s.workers := by
    funext v
    by_cases hv : v = w
    · simp [hv]
    · simp [hv]
  simp only [State.setWorker, this]

theorem Sound.signalTask (h : Sound cfg s) (woke : Option Nat) : Sound cfg (s.signalTask woke) := by
  cases woke with
  | none => exact h
  | some w =>
    simp only [State.signalTask]
    cases hpc : s.workers w with
    | waiting => exact h.move (by rw [hpc]; rfl) rfl (by rw [hpc]; rfl)
    | absent | starting | woken | running | ready | joining | exited | joined =>
      simp only [WorkerPc.wake]
      rw [← hpc, setWorker_same]
      exact h

theorem Sound.enqueue (h : Sound cfg s) (hroom : Room cfg s) (woke : Option Nat) (t : Nat) :
    Sound cfg (enqueue woke t s) := by
  apply Sound.setSubmit
  apply Sound.signalTask
  refine ⟨h.lists, h.liveCount, h.capacity, ?_, ?_, h.closing, h.drained, h.emptied⟩
  · simp [h.queued]
  · intro hmax
    rcases hroom with hzero | hless
    · exact absurd hzero hmax
    · exact hless

theorem Sound.create (h : Sound cfg s) (hspawn : Spawns cfg s) (hopen : s.closed = false) :
    Sound cfg (workerCreate .granted s).2 := by
  have notLast : ¬ (s.destroy = .joining ∨ s.destroy = .done) := by
    intro hd
    have := h.closing (by rcases hd with hd | hd <;> simp [hd])
      (by rcases hd with hd | hd <;> simp [hd])
    rw [hopen] at this
    cases this
  refine ⟨h.lists.create, ?_, ?_, h.queued, h.room, h.closing, ?_, h.emptied⟩
  · simp [workerCreate, State.setWorker, h.liveCount]
  · intro hcap
    rcases hspawn.2 with hzero | hless
    · exact absurd hzero hcap
    · exact hless
  · exact fun hd => absurd hd notLast

theorem Sound.submitTurn (h : Sound cfg s) (answer : Creation) (woke : Option Nat) (t : Nat) :
    Sound cfg (submitTurn cfg answer woke t s) := by
  have turn := submitTurn_turn cfg answer woke t s
  generalize ThPool.submitTurn cfg answer woke t s = u at turn ⊢
  cases turn with
  | created hopen hroom hspawn => exact (h.create hspawn hopen).enqueue hroom woke t
  | noThread => exact h.broadcastSlot.setSubmit t _
  | enqueued _ _ hroom => exact h.enqueue hroom woke t
  | blocked => exact (h.setBlocked _).setSubmit t _
  | closed | noMemory | overload => exact h.setSubmit t _

theorem Sound.unblock (h : Sound cfg s) : Sound cfg (unblock s) := by
  unfold ThPool.unblock
  dsimp only
  split
  · exact (h.setBlocked _).broadcastSlot
  · exact h.setBlocked _

theorem Sound.leave (h : Sound cfg s) {w : Nat} (hfrom : (s.workers w).onLive)
    (hstale : (s.workers w).stale = []) : Sound cfg (leave w s) := by
  have hw := (h.lists.onLive w).2 hfrom
  have notLast (hd : s.destroy.wake = .joining ∨ s.destroy.wake = .done) : False := by
    rw [wake_destroy (by decide) (by decide), wake_destroy (by decide) (by decide)] at hd
    rw [h.drained hd] at hw
    cases hw
  refine ⟨h.lists.leave hfrom hstale, ?_, ?_, h.queued, h.room, h.broadcastSlot.closing, ?_, ?_⟩
  · change s.liveCount - 1 = (s.live.erase w).length
    rw [List.length_erase_of_mem hw, h.liveCount]
  · intro hcap
    exact Nat.le_trans (Nat.sub_le ..) (h.capacity hcap)
  · exact fun hd => (notLast hd).elim
  · exact fun hd => (notLast (.inr hd)).elim

theorem atTest_stale {pc : WorkerPc} (h : pc.AtTest) : pc.stale = [] := by
  rcases h with rfl | rfl <;> rfl

theorem Sound.retire (h : Sound cfg s) {w : Nat} (hw : (s.workers w).AtTest) :
    Sound cfg (retire w s) := by
  obtain ⟨hlive, -, -⟩ := hw.plain
  unfold ThPool.retire
  cases hr : s.retired with
  | nil => exact h.leave hlive (atTest_stale hw)
  | cons v rest =>
    have taken := h.lists.takeStale hlive (atTest_stale hw)
    rw [hr] at taken
    exact ⟨taken, h.liveCount, h.capacity, h.queued, h.room, h.closing, h.drained, fun _ => rfl⟩

theorem Sound.workerTurn (h : Sound cfg s) (timedOut : Bool) {w : Nat}
    (hw : (s.workers w).AtTest) : Sound cfg (workerTurn timedOut w s) := by
  obtain ⟨hlive, -, -⟩ := hw.plain
  have hstale := atTest_stale hw
  unfold ThPool.workerTurn
  cases hq : s.queue with
  | nil =>
    dsimp only
    split
    · exact h.retire hw
    · exact ⟨h.lists.move hlive rfl hstale.symm, h.liveCount, h.capacity,
        h.queued.trans (congrArg List.length hq), h.room, h.closing, h.drained, h.emptied⟩
  | cons t rest =>
    have queued := h.queued
    rw [hq, List.length_cons] at queued
    have taken : Sound cfg ({ s with queue := rest, queuedCount := s.queuedCount - 1 }.setWorker w
        (.running t)) := by
      refine ⟨h.lists.move hlive rfl hstale.symm, h.liveCount, h.capacity, ?_, ?_, h.closing,
        h.drained, h.emptied⟩
      · change s.queuedCount - 1 = rest.length
        omega
      · intro hmax
        exact Nat.le_trans (Nat.sub_le ..) (h.room hmax)
    dsimp only
    split
    · exact taken.broadcastSlot
    · exact taken

theorem Sound.unwait (h : Sound cfg s) {w : Nat} {timedOut : Bool}
    (hw : s.workers w = .woken timedOut) : Sound cfg (unwait w s) :=
  ⟨h.lists.move (by rw [hw]; rfl) rfl (by rw [hw]; rfl), h.liveCount, h.capacity, h.queued, h.room,
    h.closing, h.drained, h.emptied⟩

theorem Sound.setDestroy (h : Sound cfg s) {pc : DestroyPc}
    (hclosed : pc ≠ .idle → pc ≠ .called → s.closed = true)
    (hdrained : pc = .joining ∨ pc = .done → s.live = []) (hempty : pc = .done → s.retired = []) :
    Sound cfg { s with destroy := pc } :=
  ⟨h.lists, h.liveCount, h.capacity, h.queued, h.room, hclosed, hdrained, hempty⟩

theorem Sound.close (h : Sound cfg s) : Sound cfg (close s) := by
  have closed : Sound cfg { s with closed := true } := ⟨h.lists, h.liveCount, h.capacity, h.queued,
    h.room, fun _ _ => rfl, h.drained, h.emptied⟩
  exact closed.broadcastTask.broadcastSlot

theorem Sound.destroyTurn (h : Sound cfg s) (hclosed : s.closed = true) :
    Sound cfg (destroyTurn s) := by
  unfold ThPool.destroyTurn
  split
  · exact h.setDestroy (fun _ _ => hclosed) (by simp) (by simp)
  · rename_i hstop
    refine h.setDestroy (fun _ _ => hclosed) (fun _ => ?_) (by simp)
    have := h.liveCount
    exact List.eq_nil_of_length_eq_zero (by omega)

/-- The worker at the head of a private list is joined. -/
theorem Sound.joinStale (h : Sound cfg s) {w v : Nat} {stale : List Nat}
    (hw : s.workers w = .joining (v :: stale)) (hv : s.workers v = .exited) :
    Sound cfg ((s.setWorker v .joined).setWorker w (.joining stale)) := by
  have hlive : w ∈ s.live := (h.lists.onLive w).2 (by rw [hw]; rfl)
  have hne : w ≠ v := by
    rintro rfl
    rw [hw] at hv
    cases hv
  have hoff := places_pos_exited h.lists hv
  refine ⟨?_, h.liveCount, h.capacity, h.queued, h.room, h.closing, h.drained, h.emptied⟩
  change Lists s.live s.retired s.created (moved (moved s.workers v .joined) w (.joining stale))
  apply h.lists.joined hv
  · rw [moved_of_ne hne.symm, moved_self]
  · intro u hu
    by_cases huw : u = w
    · subst huw
      rw [moved_self, hw]
      simp [WorkerPc.onLive, WorkerPc.unjoined]
    · rw [moved_of_ne huw, moved_of_ne hu]
      exact ⟨Iff.rfl, Iff.rfl, rfl⟩
  · intro x
    have off := onStale_off s.workers hoff .joined x
    have taken := onStale_moved (moved s.workers v .joined) h.lists.nodup hlive (.joining stale) x
    rw [moved_of_ne hne, hw] at taken
    change _ + (v :: stale).count x = _ + stale.count x at taken
    rw [List.count_cons] at taken
    unfold places
    by_cases hx : x = v
    · subst hx
      simp only [BEq.rfl, if_true] at taken ⊢
      omega
    · simp only [beq_iff_eq, Ne.symm hx, hx, if_false] at taken ⊢
      omega

/-- The worker at the head of the retired list is joined. -/
theorem Sound.joinRetired (h : Sound cfg s) {v : Nat} {rest : List Nat}
    (hr : s.retired = v :: rest) (hv : s.workers v = .exited) (hd : s.destroy = .joining) :
    Sound cfg ({ s with retired := rest }.setWorker v .joined) := by
  have hoff := places_pos_exited h.lists hv
  refine ⟨?_, h.liveCount, h.capacity, h.queued, h.room, h.closing, h.drained, ?_⟩
  · change Lists s.live rest s.created (moved s.workers v .joined)
    apply h.lists.joined hv
    · exact moved_self ..
    · intro u hu
      rw [moved_of_ne hu]
      exact ⟨Iff.rfl, Iff.rfl, rfl⟩
    · intro x
      have off := onStale_off s.workers hoff .joined x
      unfold places
      rw [off, hr, List.count_cons]
      by_cases hx : x = v
      · subst hx
        simp only [BEq.rfl, if_true]
        omega
      · simp only [beq_iff_eq, Ne.symm hx, hx, if_false]
        omega
  · intro hdone
    have : s.destroy = .done := hdone
    rw [hd] at this
    cases this

theorem init_sound (cfg : Config) : Sound cfg init := by
  refine ⟨⟨?_, ?_, ?_⟩, rfl, fun _ => Nat.zero_le _, rfl, fun _ => Nat.zero_le _, ?_, ?_, ?_⟩ <;>
    simp [init, WorkerPc.onLive, places, onStale, WorkerPc.unjoined]

/-! ## Every step -/

theorem step_sound {s' : State} {l : Label} (h : Sound cfg s) (hstep : step cfg s l = some s') :
    Sound cfg s' := by
  obtain ⟨-, does⟩ := step_does hstep
  cases does with
  | call t early pc _ _ => exact h.setSubmit t pc
  | enter t answer woke _ _ => exact h.submitTurn answer woke t
  | retry t answer woke _ _ => exact h.unblock.submitTurn answer woke t
  | wakeSubmit t _ => exact h.setSubmit t _
  | test w hfrom => exact h.workerTurn false hfrom
  | back w timedOut hfrom =>
    exact (h.unwait hfrom).workerTurn timedOut (.inr (by simp [ThPool.unwait, State.setWorker]))
  | wakeWorker w hfrom | timeout w hfrom _ | resume w hfrom =>
    exact h.move (by rw [hfrom]; rfl) rfl (by rw [hfrom]; rfl)
  | finish w t hfrom =>
    exact ⟨h.lists.move (by rw [hfrom]; rfl) rfl (by rw [hfrom]; rfl), h.liveCount, h.capacity,
      h.queued, h.room, h.closing, h.drained, h.emptied⟩
  | join w v stale hfrom hv => exact h.joinStale hfrom hv
  | leave w hfrom => exact h.leave (by rw [hfrom]; rfl) (by rw [hfrom]; rfl)
  | close => exact h.close
  | callDestroy _ => exact h.setDestroy (by simp) (by simp) (by simp)
  | destroyClose _ => exact h.close.setDestroy (fun _ _ => rfl) (by simp) (by simp)
  | destroyTest hfrom =>
    rcases hfrom with hpc | hpc <;>
      exact h.destroyTurn (h.closing (by simp [hpc]) (by simp [hpc]))
  | wakeDestroy hfrom =>
    exact h.setDestroy (fun _ _ => h.closing (by simp [hfrom]) (by simp [hfrom])) (by simp)
      (by simp)
  | release hfrom hr =>
    exact h.setDestroy (fun _ _ => h.closing (by simp [hfrom]) (by simp [hfrom]))
      (fun _ => h.drained (.inl hfrom)) (fun _ => hr)
  | joinRetired v rest hfrom hr hv => exact h.joinRetired hr hv hfrom

/-! ## Joins -/

/-- The worker that the step joins. -/
def State.joins (s : State) : Label → Option Nat
  | .join w => (s.workers w).stale.head?
  | .joinRetired => s.retired.head?
  | _ => none

/-- The pool together with the workers that were joined. -/
def joinStep (cfg : Config) (x : State × List Nat) (l : Label) : Option (State × List Nat) :=
  (step cfg x.1 l).map fun t => (t, (x.1.joins l).toList ++ x.2)

/-- The same workers are joined. -/
def SameJoined (s t : State) : Prop := ∀ w, t.workers w = .joined ↔ s.workers w = .joined

theorem SameJoined.trans {s t u : State} (h : SameJoined s t) (h' : SameJoined t u) :
    SameJoined s u := fun w => (h' w).trans (h w)

theorem sameJoined_setWorker {w : Nat} {pc : WorkerPc} (hfrom : s.workers w ≠ .joined)
    (hto : pc ≠ .joined) : SameJoined s (s.setWorker w pc) := by
  intro v
  by_cases hv : v = w
  · simp [State.setWorker, hv, hfrom, hto]
  · simp [State.setWorker, hv]

theorem wake_joined (pc : WorkerPc) : pc.wake = .joined ↔ pc = .joined := by
  cases pc <;> simp [WorkerPc.wake]

theorem sameJoined_signalTask (s : State) (woke : Option Nat) :
    SameJoined s (s.signalTask woke) := by
  intro v
  cases woke with
  | none => exact Iff.rfl
  | some w =>
    simp only [State.signalTask, State.setWorker]
    by_cases hv : v = w
    · simp [hv, wake_joined]
    · simp [hv]

theorem sameJoined_submitTurn (h : Sound cfg s) (answer : Creation) (woke : Option Nat) (t : Nat) :
    SameJoined s (submitTurn cfg answer woke t s) := by
  have enqueued (u : State) : SameJoined u (enqueue woke t u) := by
    intro v
    exact sameJoined_signalTask { u with queue := u.queue ++ [t], queuedCount := u.queuedCount + 1 }
      woke v
  have same : SameJoined s s := fun _ => Iff.rfl
  have turn := submitTurn_turn cfg answer woke t s
  generalize submitTurn cfg answer woke t s = u at turn ⊢
  cases turn with
  | created =>
    refine SameJoined.trans ?_ (enqueued _)
    have absent := (h.lists.absent s.created).2 (Nat.le_refl _)
    exact sameJoined_setWorker (s := s) (by simp [absent]) (by simp)
  | enqueued => exact enqueued s
  | closed | noMemory | noThread | overload | blocked => exact same

theorem sameJoined_workerTurn (timedOut : Bool) {w : Nat} (hw : (s.workers w).AtTest) :
    SameJoined s (workerTurn timedOut w s) := by
  have hfrom : s.workers w ≠ .joined := by rcases hw with hw | hw <;> simp [hw]
  unfold workerTurn
  cases s.queue with
  | nil =>
    dsimp only
    split
    · unfold retire
      cases s.retired with
      | nil => exact sameJoined_setWorker hfrom (by simp)
      | cons v rest => exact sameJoined_setWorker hfrom (by simp)
    · exact sameJoined_setWorker hfrom (by simp)
  | cons t rest =>
    dsimp only
    split <;> exact sameJoined_setWorker hfrom (by simp)

theorem step_joins {s' : State} {l : Label} (h : Sound cfg s) (hstep : step cfg s l = some s') :
    (∀ w, s.joins l = some w → s.workers w = .exited) ∧
      ∀ w, s'.workers w = .joined ↔ s.workers w = .joined ∨ s.joins l = some w := by
  -- a step that joins nobody
  have quiet (hl : s.joins l = none) (same : SameJoined s s') :
      (∀ w, s.joins l = some w → s.workers w = .exited) ∧
        ∀ w, s'.workers w = .joined ↔ s.workers w = .joined ∨ s.joins l = some w := by
    rw [hl]
    exact ⟨by simp, fun w => (same w).trans (by simp)⟩
  -- a step that joins `v`
  have joined {v : Nat} (hl : s.joins l = some v) (hv : s.workers v = .exited)
      (hself : s'.workers v = .joined)
      (others : ∀ w, w ≠ v → (s'.workers w = .joined ↔ s.workers w = .joined)) :
      (∀ w, s.joins l = some w → s.workers w = .exited) ∧
        ∀ w, s'.workers w = .joined ↔ s.workers w = .joined ∨ s.joins l = some w := by
    rw [hl]
    constructor
    · rintro w ⟨⟩
      exact hv
    · intro w
      by_cases hw : w = v
      · simp [hw, hself]
      · simp [others w hw, Ne.symm hw]
  obtain ⟨-, does⟩ := step_does hstep
  cases does with
  | enter t answer woke _ _ => exact quiet rfl (sameJoined_submitTurn h answer woke t)
  | retry t answer woke _ _ =>
    have := sameJoined_submitTurn h.unblock answer woke t
    refine quiet rfl (fun w => (this w).trans ?_)
    rw [(unblock_workers s).1]
  | test w hfrom => exact quiet rfl (sameJoined_workerTurn false hfrom)
  | back w timedOut hfrom =>
    refine quiet rfl (SameJoined.trans (t := unwait w s) ?_
      (sameJoined_workerTurn timedOut (.inr (by simp [unwait, State.setWorker]))))
    exact sameJoined_setWorker (by simp [hfrom]) (by simp)
  | join w v stale hfrom hv =>
    have hne : v ≠ w := by
      rintro rfl
      rw [hfrom] at hv
      cases hv
    refine joined (v := v) (by simp [State.joins, hfrom, WorkerPc.stale]) hv ?_ ?_
    · simp [State.setWorker, hne]
    · intro u hu
      by_cases huw : u = w
      · simp [State.setWorker, huw, hfrom]
      · simp [State.setWorker, huw, hu]
  | release _ hr => exact quiet (by simp [State.joins, hr]) (fun _ => Iff.rfl)
  | joinRetired v rest _ hr hv =>
    refine joined (v := v) (by simp [State.joins, hr]) hv ?_ ?_
    · simp [State.setWorker]
    · intro u hu
      simp [State.setWorker, hu]
  | wakeWorker w hfrom | timeout w hfrom _ | resume w hfrom | finish w t hfrom | leave w hfrom =>
    exact quiet rfl (sameJoined_setWorker (by simp [State.broadcastSlot, hfrom]) (by simp))
  | close | destroyClose => exact quiet rfl (fun w => wake_joined _)
  | destroyTest _ =>
    refine quiet rfl (fun w => ?_)
    unfold destroyTurn
    split <;> exact Iff.rfl
  | call | wakeSubmit | callDestroy | wakeDestroy => exact quiet rfl (fun _ => Iff.rfl)

/-! ## Submissions -/

/-- The call waits for room, or is back from that wait without the lock. -/
def SubmitPc.waits : SubmitPc → Bool
  | .blocked | .woken => true
  | .idle | .entering | .returned _ => false

@[simp] theorem wake_waits (pc : SubmitPc) : pc.wake.waits = pc.waits := by cases pc <;> rfl

/-- The call whose section the step is. -/
def Label.submitter : Label → Option Nat
  | .call t _ | .submit t _ _ | .wakeSubmit t => some t
  | _ => none

/-- Queue, lists and counts are as before, up to the submitters that wait. -/
structure Untouched (s s' : State) : Prop where
  queue : s'.queue = s.queue
  live : s'.live = s.live
  retired : s'.retired = s.retired
  workers : s'.workers = s.workers
  created : s'.created = s.created
  liveCount : s'.liveCount = s.liveCount
  waitingCount : s'.waitingCount = s.waitingCount
  queuedCount : s'.queuedCount = s.queuedCount

/-- `blocked_count_` counts the calls that wait. -/
def Blocked (s : State) : Prop :=
  ∃ ts : Finset Nat, (∀ t, t ∈ ts ↔ (s.submits t).waits) ∧ s.blockedCount = ts.card

/-- How `blocked_count_` goes along with the call `t`. -/
structure Recounted (s s' : State) (t : Nat) : Prop where
  count : s'.blockedCount + (if (s.submits t).waits then 1 else 0) =
    s.blockedCount + (if (s'.submits t).waits then 1 else 0)
  others : ∀ u, u ≠ t → (s'.submits u).waits = (s.submits u).waits

theorem Recounted.blocked {s' : State} {t : Nat} (r : Recounted s s' t) (h : Blocked s) :
    Blocked s' := by
  obtain ⟨ts, hmem, hcard⟩ := h
  have count := r.count
  cases hnew : (s'.submits t).waits with
  | true =>
    refine ⟨insert t ts, ?_, ?_⟩
    · intro u
      by_cases hu : u = t
      · simp [hu, hnew]
      · simp [hu, hmem, r.others u hu]
    · cases hold : (s.submits t).waits with
      | true =>
        rw [Finset.insert_eq_of_mem ((hmem t).2 hold), ← hcard]
        simpa [hold, hnew] using count
      | false =>
        rw [Finset.card_insert_of_notMem (by simp [hmem, hold]), ← hcard]
        simpa [hold, hnew] using count
  | false =>
    refine ⟨ts.erase t, ?_, ?_⟩
    · intro u
      by_cases hu : u = t
      · simp [hu, hnew]
      · simp [hu, hmem, r.others u hu]
    · cases hold : (s.submits t).waits with
      | true =>
        rw [Finset.card_erase_of_mem ((hmem t).2 hold), ← hcard]
        simp only [hold, hnew, if_true, Bool.false_eq_true, if_false] at count
        omega
      | false =>
        rw [Finset.erase_eq_of_notMem (by simp [hmem, hold]), ← hcard]
        simpa [hold, hnew] using count

theorem Blocked.of_same {s' : State} (h : Blocked s) (hcount : s'.blockedCount = s.blockedCount)
    (hwaits : ∀ t, (s'.submits t).waits = (s.submits t).waits) : Blocked s' := by
  obtain ⟨ts, hmem, hcard⟩ := h
  exact ⟨ts, fun t => (hmem t).trans (by rw [hwaits]), hcount.trans hcard⟩

theorem setSubmit_self (s : State) (t : Nat) (pc : SubmitPc) : (s.setSubmit t pc).submits t = pc :=
  if_pos rfl

theorem setSubmit_of_ne (s : State) {t u : Nat} (h : u ≠ t) (pc : SubmitPc) :
    (s.setSubmit t pc).submits u = s.submits u := if_neg h

/-- A turn of `ct_thpool_submit` accepts the task, or returns an error or waits and
leaves the pool as it is. -/
theorem submitTurn_spec (cfg : Config) (answer : Creation) (woke : Option Nat) (t : Nat)
    (s : State) :
    (submitTurn cfg answer woke t s).blockedCount =
        s.blockedCount + (if ((submitTurn cfg answer woke t s).submits t).waits then 1 else 0) ∧
      (∀ u, u ≠ t → ((submitTurn cfg answer woke t s).submits u).waits = (s.submits u).waits) ∧
      ((submitTurn cfg answer woke t s).submits t ≠ .returned .normal →
        Untouched s (submitTurn cfg answer woke t s)) ∧
      (s.closed = true → submitTurn cfg answer woke t s = s.setSubmit t (.returned .closed)) := by
  have refused (rc : ErrorCode) : (s.setSubmit t (.returned rc)).blockedCount =
        s.blockedCount + (if ((s.setSubmit t (.returned rc)).submits t).waits then 1 else 0) ∧
      (∀ u, u ≠ t → ((s.setSubmit t (.returned rc)).submits u).waits = (s.submits u).waits) ∧
      ((s.setSubmit t (.returned rc)).submits t ≠ .returned .normal →
        Untouched s (s.setSubmit t (.returned rc))) := by
    refine ⟨?_, ?_, fun _ => ⟨rfl, rfl, rfl, rfl, rfl, rfl, rfl, rfl⟩⟩
    · simp [State.setSubmit, SubmitPc.waits]
    · intro u hu
      rw [setSubmit_of_ne s hu]
  have accepted (u : State) (hcount : u.blockedCount = s.blockedCount)
      (hsubmits : u.submits = s.submits) : (enqueue woke t u).blockedCount =
        s.blockedCount + (if ((enqueue woke t u).submits t).waits then 1 else 0) ∧
      (∀ v, v ≠ t → ((enqueue woke t u).submits v).waits = (s.submits v).waits) ∧
      ((enqueue woke t u).submits t ≠ .returned .normal → Untouched s (enqueue woke t u)) := by
    have same : (enqueue woke t u).submits =
        fun v => if v = t then .returned .normal else s.submits v := by
      rw [← hsubmits]
      cases woke <;> rfl
    rw [same]
    refine ⟨?_, ?_, ?_⟩
    · rw [show (enqueue woke t u).blockedCount = u.blockedCount by cases woke <;> rfl, hcount]
      simp [SubmitPc.waits]
    · intro v hv
      simp [hv]
    · intro h
      simp at h
  have turn := submitTurn_turn cfg answer woke t s
  generalize submitTurn cfg answer woke t s = u at turn ⊢
  have isOpen (hopen : s.closed = false) (hc : s.closed = true) :
      u = s.setSubmit t (.returned .closed) := by
    rw [hopen] at hc
    cases hc
  cases turn with
  | closed => exact ⟨(refused .closed).1, (refused .closed).2.1, (refused .closed).2.2, fun _ => rfl⟩
  | created hopen =>
    obtain ⟨count, others, untouched⟩ := accepted (workerCreate .granted s).2 rfl rfl
    exact ⟨count, others, untouched, isOpen hopen⟩
  | noMemory hopen =>
    obtain ⟨count, others, untouched⟩ := refused .memAlloc
    exact ⟨count, others, untouched, isOpen hopen⟩
  | noThread hopen =>
    refine ⟨?_, ?_, fun _ => ⟨rfl, rfl, rfl, rfl, rfl, rfl, rfl, rfl⟩, isOpen hopen⟩
    · simp [State.setSubmit, State.broadcastSlot, SubmitPc.waits]
    · intro u hu
      simp [State.setSubmit, State.broadcastSlot, hu]
  | enqueued _ hopen =>
    obtain ⟨count, others, untouched⟩ := accepted s rfl rfl
    exact ⟨count, others, untouched, isOpen hopen⟩
  | overload _ hopen =>
    obtain ⟨count, others, untouched⟩ := refused .overload
    exact ⟨count, others, untouched, isOpen hopen⟩
  | blocked _ hopen =>
    refine ⟨?_, ?_, fun _ => ⟨rfl, rfl, rfl, rfl, rfl, rfl, rfl, rfl⟩, isOpen hopen⟩
    · simp [State.setSubmit, SubmitPc.waits]
    · intro u hu
      simp [State.setSubmit, hu]

/-- What a step does to the submissions. -/
structure Submits (s : State) (l : Label) (s' : State) : Prop where
  stays : s.closed = true → s'.closed = true
  refuses : s.closed = true → ∀ t, s'.submits t = .returned .normal →
    s.submits t = .returned .normal
  unaccepted : ∀ t, l.submitter = some t → s'.submits t ≠ .returned .normal →
    Untouched s s' ∧ Recounted s s' t

/-- A step of no submitter wakes submitters at most. -/
structure Apart (s s' : State) : Prop where
  closed : s.closed = true → s'.closed = true
  count : s'.blockedCount = s.blockedCount
  submits : ∀ t, s'.submits t = s.submits t ∨ s'.submits t = (s.submits t).wake

theorem wake_returned {pc : SubmitPc} {rc : ErrorCode} :
    pc.wake = .returned rc ↔ pc = .returned rc := by
  cases pc <;> simp [SubmitPc.wake]

theorem Apart.spec {s' : State} {l : Label} (a : Apart s s') (hl : l.submitter = none)
    (hb : Blocked s) : Submits s l s' ∧ Blocked s' := by
  refine ⟨⟨a.closed, ?_, ?_⟩, hb.of_same a.count ?_⟩
  · intro _ t ht
    rcases a.submits t with h | h
    · rwa [h] at ht
    · rw [h] at ht
      exact wake_returned.1 ht
  · intro t ht
    rw [hl] at ht
    cases ht
  · intro t
    rcases a.submits t with h | h
    · rw [h]
    · rw [h, wake_waits]

theorem apart_leave (w : Nat) (s : State) : Apart s (leave w s) := ⟨id, rfl, fun _ => .inr rfl⟩

theorem apart_workerTurn (timedOut : Bool) (w : Nat) (s : State) :
    Apart s (workerTurn timedOut w s) := by
  unfold workerTurn
  cases s.queue with
  | nil =>
    dsimp only
    split
    · unfold retire
      cases s.retired with
      | nil => exact apart_leave w s
      | cons v rest => exact ⟨id, rfl, fun _ => .inl rfl⟩
    · exact ⟨id, rfl, fun _ => .inl rfl⟩
  | cons t rest =>
    dsimp only
    split
    · exact ⟨id, rfl, fun _ => .inr rfl⟩
    · exact ⟨id, rfl, fun _ => .inl rfl⟩

theorem apart_destroyTurn (s : State) : Apart s (destroyTurn s) := by
  unfold destroyTurn
  split <;> exact ⟨id, rfl, fun _ => .inl rfl⟩

theorem unblock_parts (s : State) : (unblock s).blockedCount = s.blockedCount - 1 ∧
    (unblock s).closed = s.closed ∧ Untouched s (unblock s) ∧
    ∀ t, (unblock s).submits t = s.submits t ∨ (unblock s).submits t = (s.submits t).wake := by
  unfold unblock
  dsimp only
  split
  · exact ⟨rfl, rfl, ⟨rfl, rfl, rfl, rfl, rfl, rfl, rfl, rfl⟩, fun _ => .inr rfl⟩
  · exact ⟨rfl, rfl, ⟨rfl, rfl, rfl, rfl, rfl, rfl, rfl, rfl⟩, fun _ => .inl rfl⟩

theorem Untouched.trans {s t u : State} (h : Untouched s t) (h' : Untouched t u) : Untouched s u :=
  ⟨h'.queue.trans h.queue, h'.live.trans h.live, h'.retired.trans h.retired,
    h'.workers.trans h.workers, h'.created.trans h.created, h'.liveCount.trans h.liveCount,
    h'.waitingCount.trans h.waitingCount, h'.queuedCount.trans h.queuedCount⟩

/-- A section of `ct_thpool_submit` from its lock. -/
theorem entering_spec (answer : Creation) (woke : Option Nat) {t : Nat} (hb : Blocked s)
    (hpc : s.submits t = .entering) :
    Submits s (.submit t answer woke) (submitTurn cfg answer woke t s) ∧
      Blocked (submitTurn cfg answer woke t s) := by
  obtain ⟨count, others, untouched, closed⟩ := submitTurn_spec cfg answer woke t s
  have recounted : Recounted s (submitTurn cfg answer woke t s) t := by
    refine ⟨?_, others⟩
    rw [count, hpc]
    simp [SubmitPc.waits]
  refine ⟨⟨?_, ?_, ?_⟩, recounted.blocked hb⟩
  · intro hclosed
    rw [closed hclosed]
    exact hclosed
  · intro hclosed u hu
    rw [closed hclosed] at hu
    by_cases hut : u = t
    · rw [hut, setSubmit_self] at hu
      cases hu
    · rwa [setSubmit_of_ne s hut] at hu
  · rintro u ⟨⟩ hu
    exact ⟨untouched hu, recounted⟩

/-- A section of `ct_thpool_submit` from the return of its wait. -/
theorem woken_spec (answer : Creation) (woke : Option Nat) {t : Nat} (hb : Blocked s)
    (hpc : s.submits t = .woken) :
    Submits s (.submit t answer woke) (submitTurn cfg answer woke t (unblock s)) ∧
      Blocked (submitTurn cfg answer woke t (unblock s)) := by
  obtain ⟨count, others, untouched, closed⟩ := submitTurn_spec cfg answer woke t (unblock s)
  obtain ⟨hcount, hclosed, hsame, hsubmits⟩ := unblock_parts s
  have pos : 0 < s.blockedCount := by
    obtain ⟨ts, hmem, hcard⟩ := hb
    rw [hcard, Finset.card_pos]
    exact ⟨t, (hmem t).2 (by rw [hpc]; rfl)⟩
  have recounted : Recounted s (submitTurn cfg answer woke t (unblock s)) t := by
    refine ⟨?_, ?_⟩
    · rw [count, hcount, hpc]
      simp only [SubmitPc.waits, if_true]
      omega
    · intro u hu
      rw [others u hu]
      rcases hsubmits u with h | h
      · rw [h]
      · rw [h, wake_waits]
  refine ⟨⟨?_, ?_, ?_⟩, recounted.blocked hb⟩
  · intro hc
    rw [closed (hclosed.trans hc)]
    exact hclosed.trans hc
  · intro hc u hu
    rw [closed (hclosed.trans hc)] at hu
    by_cases hut : u = t
    · rw [hut, setSubmit_self] at hu
      cases hu
    · rw [setSubmit_of_ne _ hut] at hu
      rcases hsubmits u with h | h
      · rwa [h] at hu
      · rw [h] at hu
        exact wake_returned.1 hu
  · rintro u ⟨⟩ hu
    exact ⟨hsame.trans (untouched hu), recounted⟩

/-- A call moves on outside the lock, without being accepted. -/
theorem setSubmit_spec {l : Label} {t : Nat} {pc : SubmitPc} (hl : l.submitter = some t)
    (hwaits : pc.waits = (s.submits t).waits) (hpc : pc ≠ .returned .normal) (hb : Blocked s) :
    Submits s l (s.setSubmit t pc) ∧ Blocked (s.setSubmit t pc) := by
  have recounted : Recounted s (s.setSubmit t pc) t := by
    refine ⟨?_, ?_⟩
    · rw [setSubmit_self, hwaits]
      rfl
    · intro u hu
      rw [setSubmit_of_ne s hu]
  refine ⟨⟨id, ?_, ?_⟩, recounted.blocked hb⟩
  · intro _ u hu
    by_cases hut : u = t
    · rw [hut, setSubmit_self] at hu
      exact absurd hu hpc
    · rwa [setSubmit_of_ne s hut] at hu
  · intro u hu _
    obtain rfl : t = u := Option.some.inj (hl.symm.trans hu)
    exact ⟨⟨rfl, rfl, rfl, rfl, rfl, rfl, rfl, rfl⟩, recounted⟩

theorem step_submits {s' : State} {l : Label} (hb : Blocked s) (hstep : step cfg s l = some s') :
    Submits s l s' ∧ Blocked s' := by
  obtain ⟨-, does⟩ := step_does hstep
  cases does with
  | call t early pc hfrom hto =>
    have waits : pc.waits = false ∧ pc ≠ .returned .normal := by
      rcases hto with rfl | rfl | rfl <;> simp [SubmitPc.waits]
    exact setSubmit_spec rfl (by rw [hfrom]; exact waits.1) waits.2 hb
  | enter t answer woke hfrom _ => exact entering_spec answer woke hb hfrom
  | retry t answer woke hfrom _ => exact woken_spec answer woke hb hfrom
  | wakeSubmit t hfrom => exact setSubmit_spec rfl (by rw [hfrom]; rfl) (by simp) hb
  | test w _ => exact (apart_workerTurn false w s).spec rfl hb
  | back w timedOut _ =>
    have a := apart_workerTurn timedOut w (unwait w s)
    exact Apart.spec ⟨a.closed, a.count, a.submits⟩ rfl hb
  | leave w _ => exact (apart_leave w s).spec rfl hb
  | close | destroyClose => exact Apart.spec ⟨fun _ => rfl, rfl, fun _ => .inr rfl⟩ rfl hb
  | destroyTest _ => exact (apart_destroyTurn s).spec rfl hb
  | wakeWorker | timeout | resume | finish | join | callDestroy | wakeDestroy | release
  | joinRetired => exact Apart.spec ⟨id, rfl, fun _ => .inl rfl⟩ rfl hb

/-! ## Whole runs -/

/-- Lists and counts of a pool whose lock is free, and the workers joined so far. -/
structure Good (cfg : Config) (s : State) (joined : List Nat) : Prop where
  liveCount : s.liveCount = s.live.length
  capacity : cfg.capacity ≠ 0 → s.liveCount ≤ cfg.capacity
  queued : s.queuedCount = s.queue.length
  room : cfg.maxTasks ≠ 0 → s.queuedCount ≤ cfg.maxTasks
  blocked : Blocked s
  placed : ∀ w, places s.live s.retired s.workers w =
    if w < s.created ∧ w ∉ joined then 1 else 0
  joinedOnce : ∀ w, joined.count w ≤ 1
  destroyed : s.destroy = .done → ∀ w < s.created, joined.count w = 1

/-- The joined workers are those that have been joined once. -/
structure Recorded (cfg : Config) (x : State × List Nat) : Prop where
  sound : Sound cfg x.1
  blocked : Blocked x.1
  joined : ∀ w, x.2.count w = if x.1.workers w = .joined then 1 else 0

theorem Recorded.good {x : State × List Nat} (h : Recorded cfg x) : Good cfg x.1 x.2 := by
  have known (w : Nat) : w ∈ x.2 ↔ x.1.workers w = .joined := by
    rw [← List.count_pos_iff, h.joined]
    split <;> simp [*]
  have present (w : Nat) : (x.1.workers w).unjoined = true ↔ w < x.1.created ∧ w ∉ x.2 := by
    have := h.sound.lists.absent w
    rw [known]
    simp only [WorkerPc.unjoined, Bool.and_eq_true, decide_eq_true_eq, ne_eq, this, Nat.not_le]
  refine ⟨h.sound.liveCount, h.sound.capacity, h.sound.queued, h.sound.room, h.blocked, ?_, ?_, ?_⟩
  · intro w
    rw [h.sound.lists.placed w]
    simp only [present]
  · intro w
    rw [h.joined]
    split <;> simp
  · intro hdone w hw
    have placed := h.sound.lists.placed w
    rw [h.sound.drained (.inr hdone), h.sound.emptied hdone] at placed
    have gone : ¬ (x.1.workers w).unjoined := by
      intro hu
      rw [if_pos hu] at placed
      simp [places, onStale] at placed
    rw [present, not_and_not_right] at gone
    rw [h.joined, if_pos ((known w).1 (gone hw))]

theorem joinStep_recorded {x y : State × List Nat} {l : Label} (h : Recorded cfg x)
    (hstep : joinStep cfg x l = some y) : Recorded cfg y ∧ Submits x.1 l y.1 := by
  obtain ⟨t, ht, rfl⟩ := Option.map_eq_some_iff.1 hstep
  obtain ⟨submits, blocked⟩ := step_submits h.blocked ht
  obtain ⟨exited, joins⟩ := step_joins h.sound ht
  refine ⟨⟨step_sound h.sound ht, blocked, ?_⟩, submits⟩
  intro w
  simp only [List.count_append, h.joined, joins]
  cases hj : x.1.joins l with
  | none => simp
  | some v =>
    have hv := exited v hj
    by_cases hw : w = v
    · subst hw
      simp [hv]
    · simp [Ne.symm hw]

theorem init_recorded (cfg : Config) : Recorded cfg (init, []) := by
  refine ⟨init_sound cfg, ⟨∅, ?_, rfl⟩, ?_⟩
  · intro t
    simp [init, SubmitPc.waits]
  · intro w
    simp [init]

/-- **The lists of the pool.** Over every run, whenever the lock is free, the counts
are those of the lists and within their limits, and each worker that was created is on
one list until it is joined, which has happened once to each of them when the pool is
released. No submission is accepted after the pool was closed, and one that is not
accepted leaves everything as it was. -/
theorem pool_lists (cfg : Config) (ls : List Label) :
    Lib.Lts.Throughout (joinStep cfg) (fun x => Good cfg x.1 x.2) (init, []) ls ∧
      Lib.Lts.EachStep (joinStep cfg)
        (fun x l => ∀ y, joinStep cfg x l = some y → Submits x.1 l y.1) (init, []) ls := by
  constructor
  · exact Lib.Lts.throughout_of_invariant (fun _ _ _ h hstep => (joinStep_recorded h hstep).1)
      (fun _ h => h.good) (init_recorded cfg) ls
  · exact Lib.Lts.eachStep_mono (D := fun _ _ => True)
      (fun _ _ _ h _ hstep => (joinStep_recorded h hstep).1)
      (fun _ _ h _ _ hstep => (joinStep_recorded h hstep).2) (init_recorded cfg)
      (Lib.Lts.eachStep_of_forall (fun _ _ => trivial))

end Coter.ThPool
