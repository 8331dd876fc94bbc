import Coter.Lib.Ledger
import Coter.Sync.MsgQueueRun
import Coter.Thread.JobPool

/-!
# Runs of a job pool

* `ledger`: which jobs were taken, and by whom; a step of the pool moves it as
  `Lib.Ledger.Moves` says;
* `leave_inv`: what any call on the queue does to the pool;
* `step_spec`: one step of any thread;
* `jobpool_runs`: over every run jobs are taken in order and run once, and
  `ct_jobpool_destroy` leaves out exactly those that were queued when it closed the
  queue.
-/

namespace Coter.JobPool

open Lib.ByteOrder Lib.Machine Lib.Ledger
open MsgQueue (Answer System Want Outcome Does)

/-- The jobs that were started, by their numbers. -/
def numbers (p : JobPool) : List Nat := p.started.map Prod.fst

/-- What the pool keeps at any time: the jobs taken are the first ones accepted, and
each job that runs is the one of its number, and runs once. When `ct_jobpool_destroy`
has returned, every job that was started is finished, and the others are those it found
in the queue. -/
structure Keeps (host : Endian) (p : JobPool) : Prop where
  taken : p.sys.popped <+: p.sys.accepted
  ran : ∀ x ∈ p.started, p.sys.popped[x.1]? = some (x.2.cells host)
  once : p.numbers.Nodup
  finished : p.destroy = .returned → ∀ k ∈ p.numbers, k ∈ p.finished
  unrun : p.destroy = .returned → ∃ left, p.left = some left ∧
    p.sys.accepted = p.sys.popped ++ left ∧ ∀ k, k ∈ p.numbers ↔ k < p.sys.popped.length

/-- What a step leaves alone: nothing is accepted or taken once the queue is closed,
and nothing is started once `ct_jobpool_destroy` has returned. -/
structure Effect (s : JobPool) (t : JobPool) : Prop where
  closed : s.left ≠ none →
    t.left = s.left ∧ t.sys.popped = s.sys.popped ∧ t.sys.accepted = s.sys.accepted
  ended : s.destroy = .returned → t.started = s.started ∧ t.destroy = .returned

/-! ## The ledger -/

def Worker.hand : Worker → Hand
  | .took k _ => .holds k
  | .running k => .works k
  | .trying | .popping | .gone => .free

def ledger (p : JobPool) : Lib.Ledger.State Nat where
  taken := p.sys.popped.length
  hand w := (p.worker w).hand
  started := p.numbers
  finished := p.finished

/-- How many workers are joined. -/
def Destroy.joined (n : Nat) : Destroy → Nat
  | .idle | .closing => 0
  | .joining i => i
  | .returned => n

/-- Whether `ct_jobpool_destroy` has closed the queue. -/
def Destroy.closed : Destroy → Bool
  | .idle | .closing => false
  | .joining _ | .returned => true

/-- Items that hold a job with a routine. -/
def IsJob (host : Endian) (item : MsgQueue.Item) : Prop :=
  ∃ job : Job, job.routine ≠ 0 ∧ item = job.cells host

/-- Which calls on the queue a thread can be inside of. -/
def Inside (host : Endian) (n m : Nat) (x : Worker) (t : Nat) : Want → Prop
  | .pop => x = .popping
  | .push item => IsJob host item ∧ (n ≤ t ∧ t < n + m ∨ x.runs = true)

/-- Where each job is, and what `ct_jobpool_destroy` found in the queue. -/
structure Records (host : Endian) (p : JobPool) : Prop where
  jobs : ∀ item ∈ p.sys.accepted, IsJob host item
  tidy : Tidy p.ledger
  held : ∀ w k job, p.worker w = .took k job →
    job.routine ≠ 0 ∧ p.sys.popped[k]? = some (job.cells host)
  ran : ∀ x ∈ p.started, p.sys.popped[x.1]? = some (x.2.cells host)
  closed : p.destroy.closed = true → p.sys.q.isShut = true ∧ p.left = some p.sys.q.contents
  unclosed : p.destroy.closed = false → p.left = none

structure Inv (host : Endian) (n m max : Nat) (p : JobPool) : Prop extends Records host p where
  queue : MsgQueue.Inv jobSize max p.sys
  inside : ∀ t w, p.sys.waiting t = some w → Inside host n m (p.worker t) t w.want
  outside : ∀ t, n ≤ t → p.worker t = .gone
  quiet : p.destroy ≠ .idle → ∀ t, n ≤ t → p.sys.waiting t = none
  joined : ∀ w < p.destroy.joined n, p.worker w = .gone

variable {host : Endian} {n m max : Nat} {p : JobPool}

/-! ## Jobs and their bytes -/

theorem Job.cells_length (job : Job) : (job.cells host).length = jobSize := by
  simp [Job.cells, jobSize]

theorem Job.ofCells_cells (job : Job) : Job.ofCells host (job.cells host) = job := by
  have routine : Lib.Blocks.read (job.cells host) 0 8 = encode host 8 job.routine.toNat := by
    rw [cells, Lib.Blocks.read, List.drop_zero, List.take_left' (encode_length host 8 _)]
  have arg : Lib.Blocks.read (job.cells host) 8 8 = encode host 8 job.arg.toNat := by
    rw [cells, Lib.Blocks.read, List.drop_left' (encode_length host 8 _),
      List.take_of_length_le (by simp)]
  rw [ofCells, routine, arg, ofNat_decode_encode host _ (by norm_num),
    ofNat_decode_encode host _ (by norm_num)]

/-! ## Calls on the queue -/

/-- A call that takes no item leaves each hand as it is. -/
theorem Worker.next_idle {k : Nat} {x : Worker} {a : Option Answer}
    (h : ∀ item, a ≠ some (.popped .ok (some item))) :
    (x.next host k a).hand = x.hand ∧ (x.next host k a).runs = x.runs := by
  unfold Worker.next
  split
  · exact absurd rfl (h _)
  · exact ⟨rfl, rfl⟩
  · exact absurd rfl (h _)
  · exact ⟨rfl, rfl⟩
  · exact ⟨rfl, rfl⟩

theorem Worker.next_gone (k : Nat) (a : Option Answer) : Worker.gone.next host k a = .gone := by
  unfold Worker.next
  split <;> simp_all

theorem Worker.next_took {k j : Nat} {x : Worker} {a : Option Answer} {job : Job}
    (h : ∀ item, a ≠ some (.popped .ok (some item))) (hx : x.next host k a = .took j job) :
    x = .took j job := by
  unfold Worker.next at hx
  split at hx
  · exact absurd rfl (h _)
  · cases hx
  · exact absurd rfl (h _)
  · cases hx
  · exact hx

theorem leave_gone {t w : Nat} {r : Option Answer × System} (h : p.worker w = .gone) :
    (p.leave host t r).worker w = .gone := by
  by_cases hw : w = t
  · subst hw
    show Function.update p.worker w _ w = _
    rw [Function.update_self, h, Worker.next_gone]
  · show Function.update p.worker t _ w = _
    rw [Function.update_of_ne hw, h]

/-- A call on the queue can come from the thread `t`. -/
def Comes (host : Endian) (n m : Nat) (x : Worker) (t : Nat) : Want → Prop
  | .pop => x = .trying ∨ x = .popping
  | .push item => IsJob host item ∧ (n ≤ t ∧ t < n + m ∨ x.runs = true)

theorem Inside.comes {x : Worker} {t : Nat} {want : Want} (h : Inside host n m x t want) :
    Comes host n m x t want := by
  cases want with
  | push item => exact h
  | pop => exact Or.inr h

/-- Such a call goes on waiting where it can. -/
theorem Comes.inside {x : Worker} {t k : Nat} {want : Want} (h : Comes host n m x t want) :
    Inside host n m (x.next host k none) t want := by
  cases want with
  | push item =>
    refine ⟨h.1, h.2.imp_right fun runs => ?_⟩
    rwa [(Worker.next_idle (by simp)).2]
  | pop =>
    rcases h with rfl | rfl
    · rfl
    · rfl

section leave
variable {t : Nat} {r : Option Answer × System}

theorem leave_worker : (p.leave host t r).worker t =
    (p.worker t).next host p.sys.popped.length r.1 := Function.update_self ..

theorem leave_other {u : Nat} (h : u ≠ t) : (p.leave host t r).worker u = p.worker u :=
  Function.update_of_ne h _ _

theorem record_waiting (s : System) (a : Answer) : (s.record a).waiting = s.waiting := by
  unfold System.record
  split <;> rfl

variable {q' : MsgQueue} {out : Outcome} {want : Want}

theorem waiting_other (s : System) {u : Nat} (h : u ≠ t) :
    (s.leave t q' out).2.waiting u = s.waiting u := by
  cases out with
  | returns a =>
    show (System.record _ a).waiting u = _
    rw [record_waiting]
    exact Function.update_of_ne h _ _
  | waits w => exact Function.update_of_ne h _ _

theorem waiting_self (s : System) {w : MsgQueue.Wait}
    (h : (s.leave t q' out).2.waiting t = some w) : out = .waits w := by
  cases out with
  | returns a =>
    have none : (System.record _ a).waiting t = some w := h
    rw [record_waiting] at none
    simp at none
  | waits w' =>
    have same : Function.update s.waiting t (some w') t = some w := h
    rw [Function.update_self, Option.some.injEq] at same
    rw [same]

theorem leave_inside (i : Inv host n m max p) (ends : want.Ends out)
    (comes : Comes host n m (p.worker t) t want) :
    ∀ u w, (p.sys.leave t q' out).2.waiting u = some w →
      Inside host n m ((p.leave host t (p.sys.leave t q' out)).worker u) u w.want := by
  intro u w hw
  by_cases hu : u = t
  · subst hu
    obtain rfl := waiting_self _ hw
    have same : w.want = want := by cases want <;> exact ends
    rw [leave_worker, same]
    exact comes.inside
  · rw [leave_other hu]
    rw [waiting_other _ hu] at hw
    exact i.inside u w hw

/-- A call that takes no item and puts none. -/
theorem leave_kept (i : Inv host n m max p)
    (idle : ∀ item, r.1 ≠ some (.popped .ok (some item))) (hq : r.2.q = p.sys.q)
    (popped : r.2.popped = p.sys.popped) (accepted : r.2.accepted = p.sys.accepted) :
    Records host (p.leave host t r) := by
  have hands : (fun w => ((p.leave host t r).worker w).hand) = fun w => (p.worker w).hand := by
    funext w
    by_cases hw : w = t
    · rw [hw, leave_worker, (Worker.next_idle idle).1]
    · rw [leave_other hw]
  have hledger : (p.leave host t r).ledger = p.ledger := by
    unfold ledger
    rw [hands]
    show State.mk r.2.popped.length _ _ _ = _
    rw [popped]
    rfl
  constructor
  · intro item hitem
    exact i.jobs item (accepted ▸ hitem)
  · rw [hledger]
    exact i.tidy
  · intro w k job hw
    show job.routine ≠ 0 ∧ r.2.popped[k]? = _
    rw [popped]
    by_cases same : w = t
    · subst same
      rw [leave_worker] at hw
      exact i.held w k job (Worker.next_took idle hw)
    · rw [leave_other same] at hw
      exact i.held w k job hw
  · intro x hx
    show r.2.popped[x.1]? = _
    rw [popped]
    exact i.ran x hx
  · intro hclosed
    show r.2.q.isShut = true ∧ _ = some r.2.q.contents
    rw [hq]
    exact i.closed hclosed
  · exact i.unclosed

theorem not_closed (i : Inv host n m max p) (isOpen : p.sys.q.isShut = false) :
    p.destroy.closed ≠ true := by
  intro hclosed
  rw [(i.closed hclosed).1] at isOpen
  cases isOpen

/-- A call that puts an item in the open queue. -/
theorem leave_pushed (i : Inv host n m max p) {item : MsgQueue.Item} {queue : Queue}
    (isOpen : p.sys.q.isShut = false) (good : IsJob host item)
    (hr : r = (some (.pushed item .ok), ⟨{ p.sys.q with queue },
      Function.update p.sys.waiting t none, p.sys.accepted ++ [item], p.sys.popped⟩)) :
    Records host (p.leave host t r) := by
  subst hr
  have still := not_closed i isOpen
  have kept := leave_kept (t := t) (r := (some (.pushed item .ok), p.sys)) i (by simp) rfl rfl rfl
  constructor
  · intro x hx
    rcases List.mem_append.1 hx with old | new
    · exact i.jobs x old
    · rw [List.mem_singleton.1 new]
      exact good
  · exact kept.tidy
  · exact kept.held
  · exact kept.ran
  · exact fun hclosed => absurd hclosed still
  · exact i.unclosed

theorem popped_append {k : Nat} {x item : MsgQueue.Item} {popped : List MsgQueue.Item}
    (h : popped[k]? = some x) : (popped ++ [item])[k]? = some x := by
  obtain ⟨hk, -⟩ := List.getElem?_eq_some_iff.1 h
  rw [List.getElem?_append_left hk, h]

/-- In the ledger, taking an item is taking the next number. -/
theorem taken_ledger {job : Job} {item : MsgQueue.Item}
    (next : (p.leave host t r).worker t = .took p.sys.popped.length job)
    (popped : (p.leave host t r).sys.popped = p.sys.popped ++ [item]) :
    (p.leave host t r).ledger = { p.ledger with
      taken := p.ledger.taken + 1
      hand := Function.update p.ledger.hand t (.holds p.ledger.taken) } := by
  have hands : (p.leave host t r).ledger.hand =
      Function.update p.ledger.hand t (.holds p.ledger.taken) := by
    funext w
    by_cases hw : w = t
    · subst hw
      rw [Function.update_self]
      show ((p.leave host w r).worker w).hand = _
      rw [next]
      rfl
    · rw [Function.update_of_ne hw]
      show ((p.leave host t r).worker w).hand = _
      rw [leave_other hw]
      rfl
  have taken : (p.leave host t r).ledger.taken = p.ledger.taken + 1 := by
    show (p.leave host t r).sys.popped.length = _
    rw [popped, List.length_append]
    rfl
  rw [← hands, ← taken]
  rfl

/-- A call that takes the first item. -/
theorem leave_popped (i : Inv host n m max p) {item : MsgQueue.Item} {queue : Queue}
    (isOpen : p.sys.q.isShut = false) (ready : p.worker t = .trying ∨ p.worker t = .popping)
    (hitem : p.sys.q.contents = item :: queue.contents)
    (hr : r = (some (.popped .ok (some item)), ⟨{ p.sys.q with queue },
      Function.update p.sys.waiting t none, p.sys.accepted, p.sys.popped ++ [item]⟩)) :
    Records host (p.leave host t r) := by
  have still := not_closed i isOpen
  have member : item ∈ p.sys.accepted := by
    rw [i.queue.kept, hitem]
    simp
  obtain ⟨job, routine, rfl⟩ := i.jobs item member
  have next : (p.leave host t r).worker t = .took p.sys.popped.length job := by
    rw [leave_worker, hr]
    rcases ready with h | h
    · rw [h]
      show Worker.took _ (Job.ofCells host _) = _
      rw [Job.ofCells_cells]
    · rw [h]
      show Worker.took _ (Job.ofCells host _) = _
      rw [Job.ofCells_cells]
  have popped : (p.leave host t r).sys.popped = p.sys.popped ++ [job.cells host] := by rw [hr]; rfl
  have free : p.ledger.hand t = .free := by
    show (p.worker t).hand = .free
    rcases ready with h | h
    · rw [h]
      rfl
    · rw [h]
      rfl
  constructor
  · subst hr
    exact i.jobs
  · rw [taken_ledger next popped]
    exact (Moves.takes t free).tidy i.tidy
  · intro w k job' hw
    rw [popped]
    by_cases same : w = t
    · subst same
      obtain ⟨rfl, rfl⟩ : p.sys.popped.length = k ∧ job = job' := by simpa [next] using hw
      exact ⟨routine, by simp⟩
    · rw [leave_other same] at hw
      obtain ⟨good, old⟩ := i.held w k job' hw
      exact ⟨good, popped_append old⟩
  · intro x hx
    rw [popped]
    exact popped_append (i.ran x hx)
  · exact fun hclosed => absurd hclosed still
  · exact i.unclosed

/-- A call on the queue keeps the pool well. -/
theorem leave_inv (i : Inv host n m max p) (does : Does p.sys.q out q') (ends : want.Ends out)
    (comes : Comes host n m (p.worker t) t want) (idle : n ≤ t → p.destroy = .idle) :
    Inv host n m max (p.leave host t (p.sys.leave t q' out)) ∧
      Effect p (p.leave host t (p.sys.leave t q' out)) := by
  have shut (h : p.left ≠ none) : p.sys.q.isShut = true := by
    by_cases hclosed : p.destroy.closed = true
    · exact (i.closed hclosed).1
    · exact absurd (i.unclosed (Bool.eq_false_iff.2 hclosed)) h
  have records : Records host (p.leave host t (p.sys.leave t q' out)) ∧
      (p.left ≠ none → (p.sys.leave t q' out).2.popped = p.sys.popped ∧
        (p.sys.leave t q' out).2.accepted = p.sys.accepted) := by
    cases does with
    | waits w fits =>
      exact ⟨leave_kept i (by simp [System.leave]) rfl rfl rfl, fun _ => ⟨rfl, rfl⟩⟩
    | refuses a code h refused =>
      have hcode : a.code ≠ some .ok := by
        rw [h]
        simpa using refused
      have same := MsgQueue.record_refused (s := { p.sys with
        q := p.sys.q, waiting := Function.update p.sys.waiting t none }) hcode
      simp only [System.leave, same]
      refine ⟨leave_kept i ?_ rfl rfl rfl, fun _ => ⟨trivial, trivial⟩⟩
      rintro item ⟨⟩
      exact hcode rfl
    | closes => cases want <;> exact ends.elim
    | pushes item queue isOpen valid hmax hbyte h =>
      have good : IsJob host item := by
        cases want with
        | push item' =>
          obtain rfl : item = item' := ends
          exact comes.1
        | pop => exact ends.elim
      refine ⟨leave_pushed i isOpen good rfl, fun h => ?_⟩
      rw [shut h] at isOpen
      cases isOpen
    | pops item queue isOpen valid hmax hbyte h =>
      have ready : p.worker t = .trying ∨ p.worker t = .popping := by
        cases want with
        | push item' => exact ends.elim
        | pop => exact comes
      refine ⟨leave_popped i isOpen ready h rfl, fun h => ?_⟩
      rw [shut h] at isOpen
      cases isOpen
  constructor
  · constructor
    · exact records.1
    · exact (MsgQueue.leave_spec (l := .wake t .ok 0) i.queue t does (by simp)).2
    · exact leave_inside i ends comes
    · exact fun u hu => leave_gone (i.outside u hu)
    · intro begun u hu
      have apart : u ≠ t := by
        rintro rfl
        exact begun (idle hu)
      show (p.sys.leave t q' out).2.waiting u = none
      rw [waiting_other _ apart]
      exact i.quiet begun u hu
    · exact fun w hw => leave_gone (i.joined w hw)
  · exact ⟨fun h => ⟨rfl, records.2 h⟩, fun h => ⟨rfl, h⟩⟩

end leave

/-! ## Steps of a worker on its own -/

/-- The worker `w`, which is not inside a call, goes on to `x`. -/
structure Goes (p p' : JobPool) (w : Nat) (x : Worker) : Prop where
  sys : p'.sys = p.sys
  worker : p'.worker = Function.update p.worker w x
  destroy : p'.destroy = p.destroy
  left : p'.left = p.left

variable {p' : JobPool} {w : Nat} {x : Worker}

theorem Goes.other (g : Goes p p' w x) {u : Nat} (h : u ≠ w) : p'.worker u = p.worker u := by
  rw [g.worker]
  exact Function.update_of_ne h _ _

theorem Goes.ledger (g : Goes p p' w x) : p'.ledger = { p.ledger with
    hand := Function.update p.ledger.hand w x.hand
    started := p'.numbers
    finished := p'.finished } := by
  have hands : (fun u => (p'.worker u).hand) = Function.update p.ledger.hand w x.hand := by
    funext u
    by_cases hu : u = w
    · subst hu
      rw [Function.update_self, g.worker, Function.update_self]
    · rw [Function.update_of_ne hu, g.other hu]
      rfl
  rw [JobPool.ledger, hands, g.sys]
  rfl

theorem Goes.inv (g : Goes p p' w x) (i : Inv host n m max p) (hw : w < n)
    (alone : p.sys.waiting w = none) (present : p.worker w ≠ .gone) (tidy : Tidy p'.ledger)
    (empty : ∀ k job, x ≠ .took k job)
    (ran : ∀ y ∈ p'.started, p.sys.popped[y.1]? = some (y.2.cells host)) :
    Inv host n m max p' := by
  have stays {u : Nat} (hu : p.worker u = .gone) : p'.worker u = .gone := by
    have apart : u ≠ w := by
      rintro rfl
      exact present hu
    rw [g.other apart, hu]
  constructor
  · constructor
    · rw [g.sys]
      exact i.jobs
    · exact tidy
    · intro u k job hu
      rw [g.sys]
      by_cases same : u = w
      · subst same
        rw [g.worker, Function.update_self] at hu
        exact absurd hu (empty k job)
      · rw [g.other same] at hu
        exact i.held u k job hu
    · rw [g.sys]
      exact ran
    · rw [g.destroy, g.sys, g.left]
      exact i.closed
    · rw [g.destroy, g.left]
      exact i.unclosed
  · rw [g.sys]
    exact i.queue
  · intro u c hc
    rw [g.sys] at hc
    have apart : u ≠ w := by
      rintro rfl
      rw [alone] at hc
      cases hc
    rw [g.other apart]
    exact i.inside u c hc
  · exact fun u hu => stays (i.outside u hu)
  · rw [g.destroy, g.sys]
    exact i.quiet
  · rw [g.destroy]
    exact fun u hu => stays (i.joined u hu)

theorem start_inv (i : Inv host n m max p) {k : Nat} {job : Job} (hw : w < n)
    (alone : p.sys.waiting w = none) (took : p.worker w = .took k job) :
    Inv host n m max { p with
      worker := Function.update p.worker w (.running k), started := p.started ++ [(k, job)] } := by
  have g : Goes p { p with
      worker := Function.update p.worker w (.running k)
      started := p.started ++ [(k, job)] } w (.running k) := ⟨rfl, rfl, rfl, rfl⟩
  have holds : p.ledger.hand w = .holds k := by
    show (p.worker w).hand = _
    rw [took]
    rfl
  refine g.inv i hw alone (by simp [took]) ?_ (by simp) ?_
  · have counted : (p.started ++ [(k, job)]).map Prod.fst = p.numbers ++ [k] := List.map_append ..
    rw [g.ledger, JobPool.numbers, counted]
    exact (Moves.starts w k holds).tidy i.tidy
  · intro y hy
    rcases List.mem_append.1 hy with old | new
    · exact i.ran y old
    · rw [List.mem_singleton.1 new]
      exact (i.held w k job took).2

theorem finish_inv (i : Inv host n m max p) {k : Nat} (hw : w < n)
    (alone : p.sys.waiting w = none) (runs : p.worker w = .running k) :
    Inv host n m max { p with
      worker := Function.update p.worker w .trying, finished := p.finished ++ [k] } := by
  have g : Goes p { p with
      worker := Function.update p.worker w .trying
      finished := p.finished ++ [k] } w .trying := ⟨rfl, rfl, rfl, rfl⟩
  have works : p.ledger.hand w = .works k := by
    show (p.worker w).hand = _
    rw [runs]
    rfl
  refine g.inv i hw alone (by simp [runs]) ?_ (by simp) i.ran
  rw [g.ledger]
  exact (Moves.finishes w k works).tidy i.tidy

/-! ## Steps of any thread -/

theorem Inv.busy (i : Inv host n m max p) {t : Nat} (h : p.worker t ≠ .gone) : t < n := by
  by_contra outside
  exact h (i.outside t (Nat.le_of_not_lt outside))

theorem Inv.returned (i : Inv host n m max p) (h : p.destroy = .returned) (t : Nat) :
    p.worker t = .gone := by
  by_cases inside : t < n
  · refine i.joined t ?_
    rw [h]
    exact inside
  · exact i.outside t (Nat.le_of_not_lt inside)

/-- A thread calls the queue. -/
theorem call_spec (i : Inv host n m max p) {t : Nat} {want : Want}
    (op : MsgQueue.Op) (start now : Int) (hwant : op.want = some want) (fits : op.Fits jobSize)
    (comes : Comes host n m (p.worker t) t want) (idle : n ≤ t → p.destroy = .idle) :
    ∃ r, MsgQueue.step p.sys (.call t op start now) = .ok r ∧
      Inv host n m max (p.leave host t r) ∧ Effect p (p.leave host t r) := by
  obtain ⟨out, q', hcall, does⟩ :=
    MsgQueue.call_does i.queue.valid op (i.queue.slots ▸ fits) start now
  have after := leave_inv i does (MsgQueue.call_ends hwant hcall) comes idle
  exact ⟨_, by rw [MsgQueue.step, hcall, ok_bind], after⟩

theorem submit_spec (i : Inv host n m max p) {t : Nat} {how : Submit} {job : Job} {start now : Int}
    (h : Enabled n m p (.submit t how job start now)) :
    ∃ a p', step host n p (.submit t how job start now) = .ok (a, p') ∧ Effect p p' ∧
      Inv host n m max p' := by
  obtain ⟨-, comes⟩ := h
  by_cases null : job.routine = 0
  · refine ⟨none, p, by rw [step, if_pos null], ⟨fun _ => ⟨rfl, rfl, rfl⟩, fun h => ⟨rfl, h⟩⟩, i⟩
  · have from_ : n ≤ t ∧ t < n + m ∨ (p.worker t).runs = true := by
      rcases comes with ⟨low, high, -⟩ | runs
      · exact Or.inl ⟨low, high⟩
      · exact Or.inr runs
    have idle : n ≤ t → p.destroy = .idle := by
      intro outside
      rcases comes with ⟨-, -, idle⟩ | runs
      · exact idle
      · rw [i.outside t outside] at runs
        cases runs
    have want : (how.op (job.cells host)).want = some (.push (job.cells host)) := by
      cases how <;> rfl
    have fits : (how.op (job.cells host)).Fits jobSize := by
      cases how <;> exact job.cells_length
    obtain ⟨r, hr, inv, effect⟩ :=
      call_spec i _ start now want fits ⟨⟨job, null, rfl⟩, from_⟩ idle
    exact ⟨r.1, _, by rw [step, if_neg null, hr, ok_bind], effect, inv⟩

theorem wake_spec (i : Inv host n m max p) {t : Nat} {result : Code} {now : Int}
    (h : Enabled n m p (.wake t result now)) :
    ∃ a p', step host n p (.wake t result now) = .ok (a, p') ∧ Effect p p' ∧
      Inv host n m max p' := by
  cases hw : p.sys.waiting t with
  | none => exact absurd hw h
  | some w =>
    obtain ⟨out, q', hresume, does⟩ := MsgQueue.resume_does i.queue.valid w
      (i.queue.slots ▸ i.queue.waiting t w hw) result now
    have idle : n ≤ t → p.destroy = .idle := by
      intro outside
      by_contra begun
      rw [i.quiet begun t outside] at hw
      cases hw
    obtain ⟨inv, effect⟩ :=
      leave_inv i does (MsgQueue.resume_ends hresume) (i.inside t w hw).comes idle
    refine ⟨(p.sys.leave t q' out).1, _, ?_, effect, inv⟩
    rw [step, MsgQueue.step, hw]
    dsimp only
    rw [hresume]
    rfl

theorem work_spec (i : Inv host n m max p) {w : Nat} {start now : Int}
    (h : Enabled n m p (.work w start now)) :
    ∃ a p', step host n p (.work w start now) = .ok (a, p') ∧ Effect p p' ∧
      Inv host n m max p' := by
  obtain ⟨hw, alone, present⟩ := h
  have begun : p.destroy ≠ .returned := fun ended => present (i.returned ended w)
  have idle : n ≤ w → p.destroy = .idle := fun outside => absurd hw (Nat.not_lt.2 outside)
  cases phase : p.worker w with
  | trying =>
    obtain ⟨r, hr, inv, effect⟩ := call_spec i (t := w) .tryPop start now rfl trivial
      (Or.inl phase) idle
    exact ⟨none, _, by rw [step, work, phase]; dsimp only; rw [hr]; rfl, effect, inv⟩
  | popping =>
    obtain ⟨r, hr, inv, effect⟩ := call_spec i (t := w) .pop start now rfl trivial
      (Or.inr phase) idle
    exact ⟨none, _, by rw [step, work, phase]; dsimp only; rw [hr]; rfl, effect, inv⟩
  | took k job =>
    have inv := start_inv i hw alone phase
    refine ⟨none, _, ?_, ?_, inv⟩
    · rw [step, work, phase]
      dsimp only
      rw [if_pos (i.held w k job phase).1]
      rfl
    · exact ⟨fun _ => ⟨rfl, rfl, rfl⟩, fun ended => absurd ended begun⟩
  | running k =>
    have inv := finish_inv i hw alone phase
    refine ⟨none, _, ?_, ?_, inv⟩
    · rw [step, work, phase]
      rfl
    · exact ⟨fun _ => ⟨rfl, rfl, rfl⟩, fun ended => absurd ended begun⟩
  | gone => exact absurd phase present

/-- The calls of `ct_jobpool_destroy` that leave the queue alone. -/
theorem destroy_spec (i : Inv host n m max p) {d : Destroy} (closed : d.closed = p.destroy.closed)
    (quiet : ∀ t, n ≤ t → p.sys.waiting t = none) (joined : ∀ w < d.joined n, p.worker w = .gone)
    (ended : p.destroy = .returned → d = .returned) :
    Effect p { p with destroy := d } ∧ Inv host n m max { p with destroy := d } := by
  refine ⟨⟨fun _ => ⟨rfl, rfl, rfl⟩, fun h => ⟨rfl, ended h⟩⟩, ?_⟩
  constructor
  · exact ⟨i.jobs, i.tidy, i.held, i.ran, fun h => i.closed (closed ▸ h),
      fun h => i.unclosed (closed ▸ h)⟩
  · exact i.queue
  · exact i.inside
  · exact i.outside
  · exact fun _ => quiet
  · exact joined

theorem close_eq (s : System) (t : Nat) : MsgQueue.step s (.call t .close 0 0) =
    .ok (some .closed, { s with
      q := { s.q with isShut := true }, waiting := Function.update s.waiting t none }) := by
  obtain ⟨⟨queue, isShut⟩, waiting, accepted, popped⟩ := s
  cases isShut with
  | true => rfl
  | false => rfl

theorem close_spec (i : Inv host n m max p) (h : p.destroy = .closing) :
    ∃ a p', step host n p .close = .ok (a, p') ∧ Effect p p' ∧ Inv host n m max p' := by
  have begun : p.destroy ≠ .idle := by simp [h]
  have quiet := i.quiet begun
  have same : Function.update p.sys.waiting n none = p.sys.waiting :=
    Function.update_eq_self_iff.2 (quiet n (Nat.le_refl n)).symm
  have unclosed : p.left = none := i.unclosed (by rw [h]; rfl)
  refine ⟨_, _, by rw [step, close_eq, same]; rfl, ⟨fun h => absurd unclosed h, ?_⟩, ?_⟩
  · intro ended
    rw [h] at ended
    cases ended
  · constructor
    · exact ⟨i.jobs, i.tidy, i.held, i.ran, fun _ => ⟨rfl, rfl⟩, fun h => by cases h⟩
    · exact ⟨i.queue.valid, i.queue.slots, i.queue.most, i.queue.waiting, i.queue.kept⟩
    · exact i.inside
    · exact i.outside
    · exact fun _ => quiet
    · exact fun w hw => absurd hw (Nat.not_lt_zero w)

theorem step_spec (i : Inv host n m max p) (l : Label) (h : Enabled n m p l) :
    ∃ a p', step host n p l = .ok (a, p') ∧ Effect p p' ∧ Inv host n m max p' := by
  cases l with
  | submit t how job start now => exact submit_spec i h
  | wake t result now => exact wake_spec i h
  | work w start now => exact work_spec i h
  | destroy =>
    obtain ⟨idle, alone⟩ := h
    refine ⟨none, _, rfl, destroy_spec i (by rw [idle]; rfl) ?_ ?_ (by simp [idle])⟩
    · intro t outside
      cases hw : p.sys.waiting t with
      | none => rfl
      | some w =>
        have inside := i.inside t w hw
        rw [i.outside t outside] at inside
        cases want : w.want with
        | pop =>
          rw [want] at inside
          cases inside
        | push item =>
          rw [want] at inside
          rcases inside.2 with ⟨-, high⟩ | runs
          · rw [alone t high outside] at hw
            cases hw
          · cases runs
    · exact fun w hw => absurd hw (Nat.not_lt_zero w)
  | close => exact close_spec i h
  | join =>
    cases hd : p.destroy with
    | idle | closing | returned => simp [Enabled, hd] at h
    | joining k =>
      have h : k < n ∧ p.worker k = .gone := by simpa [Enabled, hd] using h
      refine ⟨none, _, by rw [step, hd], destroy_spec i (by rw [hd]; rfl)
        (i.quiet (by simp [hd])) ?_ (by simp [hd])⟩
      intro w hw
      by_cases last : w = k
      · rw [last]
        exact h.2
      · refine i.joined w ?_
        rw [hd]
        show w < k
        have : w < k + 1 := hw
        omega
  | «return» =>
    have hd : p.destroy = .joining n := h
    refine ⟨none, _, rfl, destroy_spec i (by rw [hd]; rfl) (i.quiet (by simp [hd])) ?_
      (fun _ => rfl)⟩
    intro w hw
    refine i.joined w ?_
    rw [hd]
    exact hw

/-! ## Runs -/

theorem Inv.keeps (i : Inv host n m max p) : Keeps host p where
  taken := i.queue.good.fifo
  ran := i.ran
  once := i.tidy.once
  finished ended := (i.tidy.settled fun w => by
    show (p.worker w).hand = .free
    rw [i.returned ended w]
    rfl).2
  unrun ended := by
    have settled := i.tidy.settled fun w => by
      show (p.worker w).hand = .free
      rw [i.returned ended w]
      rfl
    have closed : p.destroy.closed = true := by rw [ended]; rfl
    exact ⟨p.sys.q.contents, (i.closed closed).2, i.queue.kept, settled.1⟩

theorem create_inv (host : Endian) (m : Nat) {jobMax : Nat} (h : create n jobMax = some p) :
    Inv host n m jobMax p := by
  unfold create at h
  split at h
  · cases h
  · rename_i sizes
    have valid : jobSize ≠ 0 ∧ jobMax ≠ 0 := ⟨by decide, by omega⟩
    rw [MsgQueue.init, if_neg (by omega)] at h
    cases h
    constructor
    · constructor
      · exact fun item hitem => absurd hitem List.not_mem_nil
      · refine tidy_empty fun w => ?_
        dsimp only
        split <;> rfl
      · intro w k job hw
        dsimp only at hw
        split at hw <;> cases hw
      · exact fun x hx => absurd hx List.not_mem_nil
      · exact fun closed => by cases closed
      · exact fun _ => rfl
    · constructor
      · exact Queue.init_valid (by omega) (by omega) (by simp)
      · rfl
      · rfl
      · exact fun t w hw => by cases hw
      · rfl
    · exact fun t w hw => by cases hw
    · exact fun t outside => if_neg (Nat.not_lt.2 outside)
    · exact fun _ t _ => rfl
    · exact fun w hw => absurd hw (Nat.not_lt_zero w)

/-- **A job pool runs its jobs in order and once.** Over every run of any number of
workers and of threads that submit, jobs are taken in the order in which they were
accepted, and each is started at most once. When `ct_jobpool_destroy` has returned,
every job that was started is finished and none starts any more, and the accepted jobs
that never run are those that were queued when it closed the queue. -/
theorem jobpool_runs (host : Endian) (n m : Nat) {jobMax : Nat} (h : create n jobMax = some p)
    (ls : List Label) (runs : Meets (step host n) (Enabled n m) p ls) :
    Along (step host n) (Keeps host) (fun s _ _ t => Effect s t) p ls :=
  along_of_meets (fun _ i => i.keeps) (fun _ l i hl => step_spec i l hl)
    (create_inv host m h) runs

/-- One worker and two slots: the worker waits, takes the first job, and the job submits
another one; two are left when the pool is destroyed. -/
theorem jobpool_runs_two_left : ∃ p, create 1 2 = some p ∧
    Along (step .little 1) (Keeps .little) (fun s _ _ t => Effect s t) p
      [.work 0 0 0, .work 0 0 0, .submit 1 .submit ⟨5, 6⟩ 0 0, .wake 0 .ok 0,
        .submit 1 .trySubmit ⟨7, 8⟩ 0 0, .work 0 0 0, .submit 0 (.submitFor 5) ⟨9, 8⟩ 0 0,
        .work 0 0 0, .destroy, .close, .work 0 0 0, .work 0 0 0, .join, .return] :=
  ⟨_, rfl, jobpool_runs .little 1 1 (show create 1 2 = some _ from rfl) _ (by decide)⟩

end Coter.JobPool
