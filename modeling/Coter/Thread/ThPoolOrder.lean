import Coter.Thread.ThPoolLists

/-!
# The order of the tasks

* `orderStep`: a step of the pool, with the calls that it accepts and the tasks that it starts;
* `step_order`: what a step does to the tasks;
* `pool_order`: over every run the tasks are started in the order in which they were accepted,
  each by one worker and once.
-/

namespace Coter.ThPool

variable {cfg : Config} {s s' : State} {t w : Nat} {l : Label}

/-- The pool, the calls that were accepted and the tasks that were started, in their order. -/
structure Order where
  s : State
  accepted : List Nat
  started : List Nat

/-- The call that a step to `s` has accepted. -/
def State.accepted (s : State) : Label → List Nat
  | .submit t _ _ => if s.submits t = .returned .normal then [t] else []
  | _ => []

/-- The task that a step to `s` has started. -/
def State.started (s : State) : Label → List Nat
  | .worker w =>
    match s.workers w with
    | .running t => [t]
    | _ => []
  | _ => []

def orderStep (cfg : Config) (x : Order) (l : Label) : Option Order :=
  (step cfg x.s l).map fun s => ⟨s, x.accepted ++ s.accepted l, x.started ++ s.started l⟩

/-- What holds over a run. An accepted task is in the queue, or a worker runs it, or it is
finished. -/
structure InOrder (x : Order) : Prop where
  fifo : x.accepted = x.started ++ x.s.queue
  accepted : ∀ t, t ∈ x.accepted ↔ x.s.submits t = .returned .normal
  once : x.accepted.Nodup
  finished : x.s.finished.Nodup
  runs : ∀ t, t ∈ x.started ↔ t ∈ x.s.finished ∨ ∃ w, x.s.workers w = .running t
  unfinished : ∀ w t, x.s.workers w = .running t → t ∉ x.s.finished
  one : ∀ v w t, x.s.workers v = .running t → x.s.workers w = .running t → v = w

/-! ## Workers -/

/-- The same workers run the same tasks. -/
def SameRuns (s s' : State) : Prop := ∀ w t, s'.workers w = .running t ↔ s.workers w = .running t

theorem SameRuns.trans {u : State} (h : SameRuns s s') (h' : SameRuns s' u) : SameRuns s u :=
  fun w t => (h' w t).trans (h w t)

theorem sameRuns_setWorker {pc : WorkerPc} (hfrom : ∀ t, s.workers w ≠ .running t)
    (hto : ∀ t, pc ≠ .running t) : SameRuns s (s.setWorker w pc) := by
  intro v t
  by_cases hv : v = w
  · simp [State.setWorker, hv, hfrom t, hto t]
  · simp [State.setWorker, hv]

theorem wake_running (pc : WorkerPc) (t : Nat) : pc.wake = .running t ↔ pc = .running t := by
  cases pc <;> simp [WorkerPc.wake]

theorem sameRuns_signalTask (s : State) (woke : Option Nat) : SameRuns s (s.signalTask woke) := by
  intro v t
  cases woke with
  | none => exact Iff.rfl
  | some w =>
    simp only [State.signalTask, State.setWorker]
    by_cases hv : v = w
    · simp [hv, wake_running]
    · simp [hv]

theorem sameRuns_submitTurn (h : Sound cfg s) (answer : Creation) (woke : Option Nat) (t : Nat) :
    SameRuns s (submitTurn cfg answer woke t s) := by
  have enqueued (u : State) : SameRuns u (enqueue woke t u) := by
    intro v
    exact sameRuns_signalTask { u with queue := u.queue ++ [t], queuedCount := u.queuedCount + 1 }
      woke v
  have turn := submitTurn_turn cfg answer woke t s
  generalize submitTurn cfg answer woke t s = u at turn ⊢
  cases turn with
  | created =>
    refine SameRuns.trans ?_ (enqueued _)
    have absent := (h.lists.absent s.created).2 (Nat.le_refl _)
    exact sameRuns_setWorker (s := s) (by simp [absent]) (by simp)
  | enqueued => exact enqueued s
  | closed | noMemory | noThread | overload | blocked => exact fun _ _ => Iff.rfl

/-! ## Steps -/

/-- A step that has nothing to do with the tasks. -/
structure Quiet (s s' : State) : Prop where
  queue : s'.queue = s.queue
  finished : s'.finished = s.finished
  normal : ∀ t, s'.submits t = .returned .normal ↔ s.submits t = .returned .normal
  runs : SameRuns s s'

/-- What a step does to the tasks. -/
inductive Tasks (s : State) (l : Label) (s' : State) : Prop
  | quiet (h : Quiet s s') (accepted : s'.accepted l = []) (started : s'.started l = [])
  | accepts (t : Nat) (fresh : s.submits t ≠ .returned .normal) (accepted : s'.accepted l = [t])
      (started : s'.started l = []) (queue : s'.queue = s.queue ++ [t])
      (finished : s'.finished = s.finished)
      (normal : ∀ u, s'.submits u = .returned .normal ↔ u = t ∨ s.submits u = .returned .normal)
      (runs : SameRuns s s')
  | starts (w t : Nat) (accepted : s'.accepted l = []) (started : s'.started l = [t])
      (idle : ∀ u, s.workers w ≠ .running u) (queue : s.queue = t :: s'.queue)
      (finished : s'.finished = s.finished)
      (normal : ∀ u, s'.submits u = .returned .normal ↔ s.submits u = .returned .normal)
      (runs : ∀ v u, s'.workers v = .running u ↔ v = w ∧ u = t ∨ s.workers v = .running u)
  | finishes (w t : Nat) (accepted : s'.accepted l = []) (started : s'.started l = [])
      (running : s.workers w = .running t) (queue : s'.queue = s.queue)
      (finished : s'.finished = t :: s.finished)
      (normal : ∀ u, s'.submits u = .returned .normal ↔ s.submits u = .returned .normal)
      (runs : ∀ v u, s'.workers v = .running u ↔ v ≠ w ∧ s.workers v = .running u)

/-- A submitter that is not accepted moves on. -/
theorem moves_tasks (pc : SubmitPc) (hl : s'.started l = []) (hfrom : s.submits t ≠ .returned .normal)
    (hto : pc ≠ .returned .normal) (accepted : s'.accepted l = []) (queue : s'.queue = s.queue)
    (finished : s'.finished = s.finished)
    (submits : ∀ u, u ≠ t → (s'.submits u = .returned .normal ↔ s.submits u = .returned .normal))
    (self : s'.submits t = pc) (runs : SameRuns s s') : Tasks s l s' := by
  refine .quiet ⟨queue, finished, fun u => ?_, runs⟩ accepted hl
  by_cases hu : u = t
  · rw [hu, self]
    exact iff_of_false hto hfrom
  · exact submits u hu

theorem enqueue_submits (woke : Option Nat) (t : Nat) (s : State) (u : Nat) :
    (enqueue woke t s).submits u = if u = t then .returned .normal else s.submits u := by
  cases woke <;> rfl

theorem submitTurn_tasks (h : Sound cfg s) (hfrom : s.submits t ≠ .returned .normal)
    (answer : Creation) (woke : Option Nat) :
    Tasks s (.submit t answer woke) (submitTurn cfg answer woke t s) := by
  have runs := sameRuns_submitTurn h answer woke t
  have accepts (u : State) (queue : u.queue = s.queue) (finished : u.finished = s.finished)
      (submits : u.submits = s.submits) (runs : SameRuns s (enqueue woke t u)) :
      Tasks s (.submit t answer woke) (enqueue woke t u) := by
    refine .accepts t hfrom ?_ rfl ?_ ?_ (fun v => ?_) runs
    · simp only [State.accepted, enqueue_submits, if_true]
    · rw [← queue]
      cases woke <;> rfl
    · rw [← finished]
      cases woke <;> rfl
    · rw [enqueue_submits, submits]
      by_cases hv : v = t <;> simp [hv]
  have refused (rc : ErrorCode) (bad : rc ≠ .normal) (u : State) (queue : u.queue = s.queue)
      (finished : u.finished = s.finished)
      (submits : ∀ v, u.submits v = .returned .normal ↔ s.submits v = .returned .normal)
      (runs : SameRuns s (u.setSubmit t (.returned rc))) :
      Tasks s (.submit t answer woke) (u.setSubmit t (.returned rc)) := by
    have other : SubmitPc.returned rc ≠ .returned .normal := by simpa using bad
    refine moves_tasks _ rfl hfrom other ?_ queue finished (fun v hv => ?_) (setSubmit_self _ _ _) runs
    · simp only [State.accepted, setSubmit_self, if_neg other]
    · rw [setSubmit_of_ne _ hv, submits]
  have same (v : Nat) : s.submits v = .returned .normal ↔ s.submits v = .returned .normal := Iff.rfl
  have turn := submitTurn_turn cfg answer woke t s
  generalize submitTurn cfg answer woke t s = u at turn runs ⊢
  cases turn with
  | closed => exact refused .closed nofun s rfl rfl same runs
  | created => exact accepts _ rfl rfl rfl runs
  | noMemory => exact refused .memAlloc nofun s rfl rfl same runs
  | noThread =>
    exact refused .memAlloc nofun s.broadcastSlot rfl rfl (fun v => wake_returned) runs
  | enqueued => exact accepts s rfl rfl rfl runs
  | overload => exact refused .overload nofun s rfl rfl same runs
  | blocked =>
    refine moves_tasks .blocked rfl hfrom nofun ?_ rfl rfl (fun v hv => ?_)
      (setSubmit_self _ _ _) runs
    · simp [State.accepted, State.setSubmit]
    · rw [setSubmit_of_ne _ hv]

theorem unblock_quiet (s : State) : Quiet s (unblock s) := by
  obtain ⟨-, -, untouched, submits⟩ := unblock_parts s
  refine ⟨untouched.queue, ?_, fun t => ?_, fun w t => by rw [untouched.workers]⟩
  · unfold unblock
    dsimp only
    split <;> rfl
  · rcases submits t with h | h
    · rw [h]
    · rw [h, wake_returned]

/-- What a step does after something that has nothing to do with the tasks. -/
theorem Tasks.after {m : State} (q : Quiet s m) (h : Tasks m l s') : Tasks s l s' := by
  cases h with
  | quiet h accepted started =>
    exact .quiet ⟨h.queue.trans q.queue, h.finished.trans q.finished,
      fun t => (h.normal t).trans (q.normal t), q.runs.trans h.runs⟩ accepted started
  | accepts t fresh accepted started queue finished normal runs =>
    exact .accepts t (fun n => fresh ((q.normal t).2 n)) accepted started (by rw [queue, q.queue])
      (finished.trans q.finished) (fun u => by rw [normal, q.normal]) (q.runs.trans runs)
  | starts w t accepted started idle queue finished normal runs =>
    exact .starts w t accepted started (fun u r => idle u ((q.runs w u).2 r))
      (q.queue.symm.trans queue) (finished.trans q.finished) (fun u => by rw [normal, q.normal])
      (fun v u => by rw [runs, q.runs])
  | finishes w t accepted started running queue finished normal runs =>
    exact .finishes w t accepted started ((q.runs w t).1 running) (queue.trans q.queue)
      (by rw [finished, q.finished]) (fun u => by rw [normal, q.normal])
      (fun v u => by rw [runs, q.runs])

theorem workerTurn_tasks {w : Nat} (hw : (s.workers w).AtTest) (timedOut : Bool) :
    Tasks s (.worker w) (workerTurn timedOut w s) := by
  have idle (t : Nat) : s.workers w ≠ .running t := by rcases hw with h | h <;> rw [h] <;> nofun
  have quiet {pc : WorkerPc} (u : State) (hu : u.workers w = pc) (hpc : ∀ t, pc ≠ .running t)
      (h : Quiet s u) : Tasks s (.worker w) u := by
    refine .quiet h rfl ?_
    simp only [State.started, hu]
  have apart := apart_workerTurn timedOut w s
  have normal (t : Nat) : (workerTurn timedOut w s).submits t = .returned .normal ↔
      s.submits t = .returned .normal := by
    rcases apart.submits t with h | h
    · rw [h]
    · rw [h, wake_returned]
  unfold workerTurn at normal ⊢
  cases hq : s.queue with
  | nil =>
    rw [hq] at normal
    dsimp only at normal ⊢
    split
    · next leaves =>
      rw [if_pos leaves] at normal
      unfold retire at normal ⊢
      cases hr : s.retired with
      | nil =>
        rw [hr] at normal
        exact quiet _ (if_pos rfl) (by nofun) ⟨rfl, rfl, normal, sameRuns_setWorker idle (by nofun)⟩
      | cons v rest =>
        rw [hr] at normal
        exact quiet _ (if_pos rfl) (by nofun) ⟨rfl, rfl, normal, sameRuns_setWorker idle (by nofun)⟩
    · next stays =>
      rw [if_neg stays] at normal
      exact quiet _ (if_pos rfl) (by nofun)
        ⟨hq.symm, rfl, normal, sameRuns_setWorker idle (by nofun)⟩
  | cons t rest =>
    rw [hq] at normal
    dsimp only at normal ⊢
    have started (u : State) (hu : u.workers = s.workers) (queue : u.queue = rest)
        (finished : u.finished = s.finished)
        (normal : ∀ v, u.submits v = .returned .normal ↔ s.submits v = .returned .normal) :
        Tasks s (.worker w) (u.setWorker w (.running t)) := by
      have now : (u.setWorker w (.running t)).workers w = .running t := if_pos rfl
      refine .starts w t rfl ?_ idle (hq.trans (by rw [← queue]; rfl)) finished normal fun v x => ?_
      · simp only [State.started, now]
      · by_cases hv : v = w
        · subst hv
          simp [now, idle x, eq_comm]
        · simp [State.setWorker, hv, hu]
    split
    · next waits =>
      rw [if_pos waits] at normal
      exact started _ rfl rfl rfl normal
    · next none =>
      rw [if_neg none] at normal
      exact started _ rfl rfl rfl normal

theorem step_order (h : Sound cfg s) (hstep : step cfg s l = some s') : Tasks s l s' := by
  obtain ⟨-, does⟩ := step_does hstep
  have runs : SameRuns s s := fun _ _ => Iff.rfl
  have same (t : Nat) : s.submits t = .returned .normal ↔ s.submits t = .returned .normal := Iff.rfl
  have woken (t : Nat) : (s.submits t).wake = .returned .normal ↔ s.submits t = .returned .normal :=
    wake_returned
  have wakes : SameRuns s s.broadcastTask := fun w t => wake_running (s.workers w) t
  cases does with
  | call t early pc hfrom hto =>
    have other : pc ≠ .returned .normal := by rcases hto with rfl | rfl | rfl <;> simp
    exact moves_tasks pc rfl (by simp [hfrom]) other rfl rfl rfl
      (fun u hu => by rw [setSubmit_of_ne _ hu]) (setSubmit_self _ _ _) runs
  | wakeSubmit t hfrom =>
    exact moves_tasks .woken rfl (by simp [hfrom]) (by simp) rfl rfl rfl
      (fun u hu => by rw [setSubmit_of_ne _ hu]) (setSubmit_self _ _ _) runs
  | enter t answer woke hfrom _ => exact submitTurn_tasks h (by simp [hfrom]) answer woke
  | retry t answer woke hfrom _ =>
    have quiet := unblock_quiet s
    refine (submitTurn_tasks h.unblock ?_ answer woke).after quiet
    rw [Ne, quiet.normal t, hfrom]
    simp
  | test w hfrom => exact workerTurn_tasks hfrom false
  | back w timedOut hfrom =>
    have quiet : Quiet s (unwait w s) :=
      ⟨rfl, rfl, same, sameRuns_setWorker (s := s) (by simp [hfrom]) (by simp)⟩
    exact (workerTurn_tasks (.inr (if_pos rfl)) timedOut).after quiet
  | wakeWorker w hfrom | timeout w hfrom =>
    exact .quiet ⟨rfl, rfl, same, sameRuns_setWorker (by simp [hfrom]) (by simp)⟩ rfl rfl
  | resume w hfrom =>
    exact .quiet ⟨rfl, rfl, same, sameRuns_setWorker (by simp [hfrom]) (by simp)⟩ rfl rfl
  | finish w t hfrom =>
    refine .finishes w t rfl rfl hfrom rfl rfl same fun v u => ?_
    by_cases hv : v = w
    · simp [State.setWorker, hv]
    · simp [State.setWorker, hv]
  | join w v stale hfrom hv =>
    refine .quiet ⟨rfl, rfl, same, ?_⟩ rfl rfl
    have joined : SameRuns s (s.setWorker v .joined) := sameRuns_setWorker (by simp [hv]) (by simp)
    refine joined.trans (sameRuns_setWorker (fun t ht => ?_) (by simp))
    rw [joined w t, hfrom] at ht
    cases ht
  | leave w hfrom =>
    refine .quiet ⟨rfl, rfl, woken, ?_⟩ rfl rfl
    exact sameRuns_setWorker (s := s) (by simp [hfrom]) (by simp)
  | close | destroyClose => exact .quiet ⟨rfl, rfl, woken, wakes⟩ rfl rfl
  | destroyTest hfrom =>
    unfold destroyTurn
    split <;> exact .quiet ⟨rfl, rfl, same, runs⟩ rfl rfl
  | callDestroy | wakeDestroy | release => exact .quiet ⟨rfl, rfl, same, runs⟩ rfl rfl
  | joinRetired v rest hfrom hr hv =>
    exact .quiet ⟨rfl, rfl, same, sameRuns_setWorker (by simp [hv]) (by simp)⟩ rfl rfl

/-! ## Runs -/

/-- A task that waits in the queue has not been started. -/
theorem InOrder.waits {x : Order} (h : InOrder x) (ht : t ∈ x.s.queue) : t ∉ x.started := by
  have once := h.once
  rw [h.fifo, List.nodup_append] at once
  intro hs
  exact once.2.2 t hs t ht rfl

theorem Tasks.inOrder {accepted started : List Nat} (tasks : Tasks s l s')
    (h : InOrder ⟨s, accepted, started⟩) :
    InOrder ⟨s', accepted ++ s'.accepted l, started ++ s'.started l⟩ := by
  cases tasks with
  | quiet quiet haccepted hstarted =>
    rw [haccepted, hstarted, List.append_nil, List.append_nil]
    have runs := quiet.runs
    constructor
    · exact h.fifo.trans (by rw [quiet.queue])
    · exact fun t => (h.accepted t).trans (quiet.normal t).symm
    · exact h.once
    · exact quiet.finished ▸ h.finished
    · intro t
      simp only [quiet.finished, runs _ t]
      exact h.runs t
    · intro w t hw
      rw [quiet.finished]
      exact h.unfinished w t ((runs w t).1 hw)
    · exact fun v w t hv hw => h.one v w t ((runs v t).1 hv) ((runs w t).1 hw)
  | accepts t fresh haccepted hstarted queue finished normal runs =>
    rw [haccepted, hstarted, List.append_nil]
    have new : t ∉ accepted := fun ht => fresh ((h.accepted t).1 ht)
    constructor
    · have fifo : accepted = started ++ s.queue := h.fifo
      simp only [queue, fifo, List.append_assoc]
    · intro u
      rw [normal, List.mem_append, List.mem_singleton, or_comm]
      exact or_congr Iff.rfl (h.accepted u)
    · refine List.nodup_append.2 ⟨h.once, List.nodup_singleton t, fun u hu v hv => ?_⟩
      rintro rfl
      exact new (List.mem_singleton.1 hv ▸ hu)
    · exact finished ▸ h.finished
    · intro u
      simp only [finished, runs _ u]
      exact h.runs u
    · intro w u hw
      rw [finished]
      exact h.unfinished w u ((runs w u).1 hw)
    · exact fun v w u hv hw => h.one v w u ((runs v u).1 hv) ((runs w u).1 hw)
  | starts w t haccepted hstarted idle queue finished normal runs =>
    rw [haccepted, hstarted, List.append_nil]
    have fresh : t ∉ started := h.waits (by rw [queue]; exact List.mem_cons_self)
    have still : t ∉ s.finished := fun hf => fresh ((h.runs t).2 (.inl hf))
    have unrun (v : Nat) : s.workers v ≠ .running t := fun hv => fresh ((h.runs t).2 (.inr ⟨v, hv⟩))
    constructor
    · have fifo : accepted = started ++ s.queue := h.fifo
      simp only [fifo, queue, List.append_assoc, List.singleton_append]
    · exact fun u => (h.accepted u).trans (normal u).symm
    · exact h.once
    · exact finished ▸ h.finished
    · intro u
      rw [List.mem_append, List.mem_singleton, h.runs u, finished]
      constructor
      · rintro ((hf | ⟨v, hv⟩) | rfl)
        · exact .inl hf
        · exact .inr ⟨v, (runs v u).2 (.inr hv)⟩
        · exact .inr ⟨w, (runs w u).2 (.inl ⟨rfl, rfl⟩)⟩
      · rintro (hf | ⟨v, hv⟩)
        · exact .inl (.inl hf)
        · rcases (runs v u).1 hv with ⟨-, rfl⟩ | hv
          · exact .inr rfl
          · exact .inl (.inr ⟨v, hv⟩)
    · intro v u hv
      rw [finished]
      rcases (runs v u).1 hv with ⟨-, rfl⟩ | hv
      · exact still
      · exact h.unfinished v u hv
    · intro v x u hv hx
      rcases (runs v u).1 hv with ⟨hvw, hu⟩ | hv <;> rcases (runs x u).1 hx with ⟨hxw, hu'⟩ | hx
      · exact hvw.trans hxw.symm
      · exact absurd (hu ▸ hx) (unrun x)
      · exact absurd (hu' ▸ hv) (unrun v)
      · exact h.one v x u hv hx
  | finishes w t haccepted hstarted running queue finished normal runs =>
    rw [haccepted, hstarted, List.append_nil, List.append_nil]
    constructor
    · exact h.fifo.trans (by rw [queue])
    · exact fun u => (h.accepted u).trans (normal u).symm
    · exact h.once
    · rw [finished]
      exact List.nodup_cons.2 ⟨h.unfinished w t running, h.finished⟩
    · intro u
      rw [h.runs u, finished, List.mem_cons]
      constructor
      · rintro (hf | ⟨v, hv⟩)
        · exact .inl (.inr hf)
        · by_cases hvw : v = w
          · subst hvw
            rw [running] at hv
            cases hv
            exact .inl (.inl rfl)
          · exact .inr ⟨v, (runs v u).2 ⟨hvw, hv⟩⟩
      · rintro ((rfl | hf) | ⟨v, hv⟩)
        · exact .inr ⟨w, running⟩
        · exact .inl hf
        · exact .inr ⟨v, ((runs v u).1 hv).2⟩
    · intro v u hv
      obtain ⟨hvw, hv⟩ := (runs v u).1 hv
      rw [finished, List.mem_cons]
      rintro (rfl | hf)
      · exact hvw (h.one v w u hv running)
      · exact h.unfinished v u hv hf
    · exact fun v x u hv hx => h.one v x u ((runs v u).1 hv).2 ((runs x u).1 hx).2

theorem init_inOrder : InOrder ⟨init, [], []⟩ := by
  constructor <;> simp [init]

/-- **First in, first out, once.** Over every run of submitters, workers, timeouts, closing and
destruction, the tasks are started in the order in which `ct_thpool_submit` accepted them. A task
whose submission returned `CT_THPOOL_ERROR_NORMAL`, and no other, is either still in the queue, or
run by exactly one worker, or was run once. -/
theorem pool_order (cfg : Config) (ls : List Label) :
    Lib.Lts.Throughout (orderStep cfg) InOrder ⟨init, [], []⟩ ls := by
  have keeps (x : Order) (l : Label) (y : Order) (h : Sound cfg x.s ∧ InOrder x)
      (hstep : orderStep cfg x l = some y) : Sound cfg y.s ∧ InOrder y := by
    obtain ⟨s', hs, rfl⟩ := Option.map_eq_some_iff.1 hstep
    exact ⟨step_sound h.1 hs, (step_order h.1 hs).inOrder h.2⟩
  exact Lib.Lts.throughout_of_invariant keeps (fun _ h => h.2) ⟨init_sound cfg, init_inOrder⟩ ls

end Coter.ThPool
