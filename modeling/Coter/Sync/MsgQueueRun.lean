import Coter.Lib.Machine
import Coter.Sync.MsgQueue

/-!
# Runs of a message queue

* `Does`: what a call can do to the queue while it holds the mutex;
* `call_ends`, `resume_ends`: a push ends as a push and a pop as a pop;
* `step_spec`: one step of any thread;
* `msgqueue_runs`: over every run the queue is first-in first-out, bounded, and
  refuses calls once it is closed.
-/

namespace Coter.MsgQueue

open Lib.Machine

/-- The items in the queue, oldest first. -/
def contents (q : MsgQueue) : List Item := q.queue.contents

def Answer.code : Answer → Option Code
  | .pushed _ code | .popped code _ => some code
  | .closed => none

def Want.Fits (byte : Nat) : Want → Prop
  | .push item => item.length = byte
  | .pop => True

/-- What a call can do: wait, refuse, close, or move an item at its end of the queue. -/
inductive Does (q : MsgQueue) : Outcome → MsgQueue → Prop
  | waits (w : Wait) (fits : w.want.Fits q.queue.byte) : Does q (.waits w) q
  | refuses (a : Answer) (code : Code) (h : a.code = some code) (refused : code ≠ .ok) :
      Does q (.returns a) q
  | closes : Does q (.returns .closed) { q with isShut := true }
  | pushes (item : Item) (queue : Queue) (isOpen : q.isShut = false) (valid : queue.Valid)
      (hmax : queue.max = q.queue.max) (hbyte : queue.byte = q.queue.byte)
      (h : queue.contents = q.contents ++ [item]) :
      Does q (.returns (.pushed item .ok)) { q with queue }
  | pops (item : Item) (queue : Queue) (isOpen : q.isShut = false) (valid : queue.Valid)
      (hmax : queue.max = q.queue.max) (hbyte : queue.byte = q.queue.byte)
      (h : q.contents = item :: queue.contents) :
      Does q (.returns (.popped .ok (some item))) { q with queue }

variable {q : MsgQueue}

theorem push_does (v : q.queue.Valid) (isOpen : q.isShut = false) (room : q.queue.isFull = false)
    {item : Item} (fits : item.length = q.queue.byte) :
    ∃ queue, q.queue.enqueue item = .ok (true, queue) ∧
      Does q (.returns (.pushed item .ok)) { q with queue } := by
  have hsize := v.size
  have less : q.queue.size < q.queue.max := by
    simp only [Queue.isFull, beq_eq_false_iff_ne] at room
    omega
  obtain ⟨queue, h, valid, hmax, hbyte, hcontents⟩ := Queue.enqueue_spec v less fits
  exact ⟨queue, h, .pushes item queue isOpen valid hmax hbyte hcontents⟩

theorem pop_does (v : q.queue.Valid) (isOpen : q.isShut = false)
    (some_ : q.queue.isEmpty = false) :
    ∃ item queue, q.queue.dequeue = .ok (some item, queue) ∧
      Does q (.returns (.popped .ok (some item))) { q with queue } := by
  have some_ : 0 < q.queue.size := by
    simp only [Queue.isEmpty, beq_eq_false_iff_ne] at some_
    omega
  obtain ⟨item, queue, h, valid, hmax, hbyte, hcontents⟩ := Queue.dequeue_spec v some_
  exact ⟨item, queue, h, .pops item queue isOpen valid hmax hbyte hcontents⟩

/-- A wait loop that returns zero has found the queue open and not blocked. -/
theorem waitWhile_ok {blocked : Bool} {timeoutMs deadline now : Int}
    (h : q.waitWhile blocked timeoutMs deadline now = .returns .ok) :
    blocked = false ∧ q.isShut = false := by
  unfold waitWhile at h
  cases blocked with
  | true =>
    simp only [if_true] at h
    split at h
    · cases h
    · split at h
      · cases h
      · split at h
        · split at h <;> cases h
        · cases h
  | false =>
    cases hshut : q.isShut with
    | true => simp [hshut] at h
    | false => exact ⟨rfl, rfl⟩

theorem goOn_does (v : q.queue.Valid) (w : Wait) (fits : w.want.Fits q.queue.byte) (now : Int) :
    ∃ out q', q.goOn w now = .ok (out, q') ∧ Does q out q' := by
  unfold goOn
  cases hw : w.want with
  | push item =>
    rw [hw] at fits
    cases hturn : q.waitNotFull w.timeoutMs w.deadline now with
    | waits waitMs => exact ⟨_, _, rfl, .waits w (hw ▸ fits)⟩
    | returns code =>
      dsimp only
      unfold finishPush
      by_cases hok : code = .ok
      · subst hok
        obtain ⟨room, isOpen⟩ := waitWhile_ok hturn
        obtain ⟨queue, h, does⟩ := push_does v isOpen room fits
        rw [if_pos rfl, h, ok_bind]
        exact ⟨_, _, rfl, does⟩
      · rw [if_neg hok]
        exact ⟨_, _, rfl, .refuses _ code rfl hok⟩
  | pop =>
    cases hturn : q.waitNotEmpty w.timeoutMs w.deadline now with
    | waits waitMs => exact ⟨_, _, rfl, .waits w (hw ▸ trivial)⟩
    | returns code =>
      dsimp only
      unfold finishPop
      by_cases hok : code = .ok
      · subst hok
        obtain ⟨some_, isOpen⟩ := waitWhile_ok hturn
        obtain ⟨item, queue, h, does⟩ := pop_does v isOpen some_
        rw [if_pos rfl, h, ok_bind]
        exact ⟨_, _, rfl, does⟩
      · rw [if_neg hok]
        exact ⟨_, _, rfl, .refuses _ code rfl hok⟩

theorem resume_does (v : q.queue.Valid) (w : Wait) (fits : w.want.Fits q.queue.byte) (result : Code)
    (now : Int) : ∃ out q', q.resume w result now = .ok (out, q') ∧ Does q out q' := by
  unfold resume
  by_cases hok : result = .ok
  · rw [if_neg (not_not.2 hok)]
    exact goOn_does v w fits now
  · rw [if_pos hok]
    cases w.want with
    | push item =>
      refine ⟨.returns (.pushed item result), q, ?_, .refuses _ result rfl hok⟩
      exact if_neg hok
    | pop =>
      refine ⟨.returns (.popped result none), q, ?_, .refuses _ result rfl hok⟩
      exact if_neg hok

theorem pushFor_does (v : q.queue.Valid) {item : Item} (fits : item.length = q.queue.byte)
    (timeoutMs start now : Int) :
    ∃ out q', q.pushFor item timeoutMs start now = .ok (out, q') ∧ Does q out q' := by
  unfold pushFor
  by_cases hshut : q.isShut = true
  · rw [if_pos hshut]
    exact ⟨_, _, rfl, .refuses _ .epipe rfl (by decide)⟩
  · rw [if_neg hshut]
    exact goOn_does v ⟨.push item, timeoutMs, deadline timeoutMs start⟩ fits now

theorem popFor_does (v : q.queue.Valid) (timeoutMs start now : Int) :
    ∃ out q', q.popFor timeoutMs start now = .ok (out, q') ∧ Does q out q' := by
  unfold popFor
  by_cases hshut : q.isShut = true
  · rw [if_pos hshut]
    exact ⟨_, _, rfl, .refuses _ .epipe rfl (by decide)⟩
  · rw [if_neg hshut]
    exact goOn_does v ⟨.pop, timeoutMs, deadline timeoutMs start⟩ trivial now

theorem tryPush_does (v : q.queue.Valid) {item : Item} (fits : item.length = q.queue.byte) :
    ∃ out q', q.tryPush item = .ok (out, q') ∧ Does q out q' := by
  unfold tryPush
  by_cases hshut : q.isShut = true
  · rw [if_pos hshut]
    exact ⟨_, _, rfl, .refuses _ .epipe rfl (by decide)⟩
  · rw [if_neg hshut]
    by_cases hfull : q.queue.isFull = true
    · rw [if_pos hfull]
      exact ⟨_, _, rfl, .refuses _ .eagain rfl (by decide)⟩
    · obtain ⟨queue, h, does⟩ :=
        push_does v (Bool.eq_false_iff.2 hshut) (Bool.eq_false_iff.2 hfull) fits
      rw [if_neg hfull, h, ok_bind]
      exact ⟨_, _, rfl, does⟩

theorem tryPop_does (v : q.queue.Valid) : ∃ out q', q.tryPop = .ok (out, q') ∧ Does q out q' := by
  unfold tryPop
  by_cases hshut : q.isShut = true
  · rw [if_pos hshut]
    exact ⟨_, _, rfl, .refuses _ .epipe rfl (by decide)⟩
  · rw [if_neg hshut]
    by_cases hempty : q.queue.isEmpty = true
    · rw [if_pos hempty]
      exact ⟨_, _, rfl, .refuses _ .eagain rfl (by decide)⟩
    · obtain ⟨item, queue, h, does⟩ :=
        pop_does v (Bool.eq_false_iff.2 hshut) (Bool.eq_false_iff.2 hempty)
      rw [if_neg hempty, h, ok_bind]
      exact ⟨_, _, rfl, does⟩

theorem close_does : ∃ out q', q.close = .ok (out, q') ∧ Does q out q' := by
  refine ⟨.returns .closed, { q with isShut := true }, ?_, .closes⟩
  unfold close
  cases q with
  | mk queue isShut => cases isShut <;> rfl

/-- The items that a call passes have the size of the slots. -/
def Op.Fits (byte : Nat) : Op → Prop
  | .push item | .tryPush item | .pushFor item _ => item.length = byte
  | .pop | .tryPop | .popFor _ | .close => True

instance (byte : Nat) : DecidablePred (Op.Fits byte)
  | .push _ | .tryPush _ | .pushFor _ _ => inferInstanceAs (Decidable (_ = _))
  | .pop | .tryPop | .popFor _ | .close => inferInstanceAs (Decidable True)

theorem call_does (v : q.queue.Valid) (op : Op) (fits : op.Fits q.queue.byte) (start now : Int) :
    ∃ out q', q.call start now op = .ok (out, q') ∧ Does q out q' := by
  cases op with
  | push item => exact pushFor_does v fits (-1) start now
  | tryPush item => exact tryPush_does v fits
  | pushFor item timeoutMs => exact pushFor_does v fits timeoutMs start now
  | pop => exact popFor_does v (-1) start now
  | tryPop => exact tryPop_does v
  | popFor timeoutMs => exact popFor_does v timeoutMs start now
  | close => exact close_does

/-! ## Answers in kind -/

/-- Whether a call that wants this can give up the mutex so: a push with its own item,
a pop with one that it took. -/
def Want.Ends : Want → Outcome → Prop
  | want, .waits w => w.want = want
  | .push item, .returns (.pushed item' _) => item' = item
  | .pop, .returns (.popped _ _) => True
  | _, .returns _ => False

/-- What a call wants, if it can wait. -/
def Op.want : Op → Option Want
  | .push item | .tryPush item | .pushFor item _ => some (.push item)
  | .pop | .tryPop | .popFor _ => some .pop
  | .close => none

variable {q' : MsgQueue} {out : Outcome}

theorem finishPush_ends {item : Item} {code : Code} (h : q.finishPush item code = .ok (out, q')) :
    (Want.push item).Ends out := by
  unfold finishPush at h
  split at h
  · obtain ⟨r, -, h⟩ := ok_of_bind h
    cases h
    rfl
  · cases h
    rfl

theorem finishPop_ends {code : Code} (h : q.finishPop code = .ok (out, q')) :
    Want.pop.Ends out := by
  unfold finishPop at h
  split at h
  · obtain ⟨r, -, h⟩ := ok_of_bind h
    cases h
    trivial
  · cases h
    trivial

theorem goOn_ends {w : Wait} {now : Int} (h : q.goOn w now = .ok (out, q')) : w.want.Ends out := by
  unfold goOn at h
  cases hw : w.want with
  | push item =>
    rw [hw] at h
    dsimp only at h
    split at h
    · exact finishPush_ends h
    · cases h
      exact hw
  | pop =>
    rw [hw] at h
    dsimp only at h
    split at h
    · exact finishPop_ends h
    · cases h
      exact hw

theorem resume_ends {w : Wait} {result : Code} {now : Int}
    (h : q.resume w result now = .ok (out, q')) : w.want.Ends out := by
  unfold resume at h
  split at h
  · cases hw : w.want with
    | push item =>
      rw [hw] at h
      exact finishPush_ends h
    | pop =>
      rw [hw] at h
      exact finishPop_ends h
  · exact goOn_ends h

theorem pushFor_ends {item : Item} {timeoutMs start now : Int}
    (h : q.pushFor item timeoutMs start now = .ok (out, q')) : (Want.push item).Ends out := by
  unfold pushFor at h
  split at h
  · cases h
    rfl
  · exact goOn_ends h

theorem popFor_ends {timeoutMs start now : Int}
    (h : q.popFor timeoutMs start now = .ok (out, q')) : Want.pop.Ends out := by
  unfold popFor at h
  split at h
  · cases h
    trivial
  · exact goOn_ends h

theorem tryPush_ends {item : Item} (h : q.tryPush item = .ok (out, q')) :
    (Want.push item).Ends out := by
  unfold tryPush at h
  split at h
  · cases h
    rfl
  · split at h
    · cases h
      rfl
    · obtain ⟨r, -, h⟩ := ok_of_bind h
      cases h
      rfl

theorem tryPop_ends (h : q.tryPop = .ok (out, q')) : Want.pop.Ends out := by
  unfold tryPop at h
  split at h
  · cases h
    trivial
  · split at h
    · cases h
      trivial
    · obtain ⟨r, -, h⟩ := ok_of_bind h
      cases h
      trivial

/-- A call ends as a call of its kind does. -/
theorem call_ends {op : Op} {want : Want} {start now : Int} (hwant : op.want = some want)
    (h : q.call start now op = .ok (out, q')) : want.Ends out := by
  cases op with
  | push item =>
    cases hwant
    exact pushFor_ends h
  | tryPush item =>
    cases hwant
    exact tryPush_ends h
  | pushFor item timeoutMs =>
    cases hwant
    exact pushFor_ends h
  | pop =>
    cases hwant
    exact popFor_ends h
  | tryPop =>
    cases hwant
    exact tryPop_ends h
  | popFor timeoutMs =>
    cases hwant
    exact popFor_ends h
  | close => cases hwant

/-! ## Runs -/

/-- The items taken are the first ones put, and the others are in the queue. -/
structure Good (max : Nat) (s : System) : Prop where
  fifo : s.popped <+: s.accepted
  kept : s.accepted = s.popped ++ s.q.contents
  bounded : s.q.contents.length ≤ max

/-- What a step does, apart from keeping the queue good. -/
structure Effect (s : System) (l : Label) (a : Option Answer) (t : System) : Prop where
  closes : ∀ u start now, l = .call u .close start now → t.q.isShut = true
  stays : s.q.isShut = true → t.q.isShut = true
  refuses : s.q.isShut = true → ∀ x, a = some x → x.code ≠ some .ok
  unchanged : (∀ x, a = some x → x.code ≠ some .ok) →
    t.q.contents = s.q.contents ∧ t.accepted = s.accepted ∧ t.popped = s.popped
  fills : ∀ item, a = some (.popped .ok item) → item ≠ none

structure Inv (byte max : Nat) (s : System) : Prop where
  valid : s.q.queue.Valid
  slots : s.q.queue.byte = byte
  most : s.q.queue.max = max
  waiting : ∀ t w, s.waiting t = some w → w.want.Fits byte
  kept : s.accepted = s.popped ++ s.q.contents

/-- A thread with no call of its own makes one, or one that waits is woken. -/
def Enabled (byte : Nat) (s : System) : Label → Prop
  | .call t op _ _ => s.waiting t = none ∧ op.Fits byte
  | .wake t _ _ => s.waiting t ≠ none

instance (byte : Nat) (s : System) : DecidablePred (Enabled byte s)
  | .call .. => inferInstanceAs (Decidable (_ ∧ _))
  | .wake .. => inferInstanceAs (Decidable (_ ≠ _))

variable {byte max : Nat} {s : System}

theorem Inv.good (i : Inv byte max s) : Good max s where
  fifo := ⟨s.q.contents, i.kept.symm⟩
  kept := i.kept
  bounded := by
    rw [contents, Queue.contents_length, ← i.most]
    exact i.valid.size

theorem waiting_update (i : Inv byte max s) (t : Nat) {w : Option Wait}
    (h : ∀ x, w = some x → x.want.Fits byte) :
    ∀ u x, Function.update s.waiting t w u = some x → x.want.Fits byte := by
  intro u x hx
  by_cases hu : u = t
  · subst hu
    rw [Function.update_self] at hx
    exact h x hx
  · rw [Function.update_of_ne hu] at hx
    exact i.waiting u x hx

theorem record_refused {a : Answer} (h : a.code ≠ some .ok) : s.record a = s := by
  cases a with
  | pushed item code =>
    cases code with
    | ok => exact absurd rfl h
    | einval | epipe | eagain | etimedout | error e => rfl
  | popped code item =>
    cases code with
    | ok => exact absurd rfl h
    | einval | epipe | eagain | etimedout | error e => rfl
  | closed => rfl

variable {l : Label} {t : System}

/-- A step whose call returns zero on an open queue. -/
theorem effect_of_ok {a : Answer} (isOpen : s.q.isShut = false) (ok : a.code = some .ok)
    (hclose : ∀ u start now, l ≠ .call u .close start now)
    (hfills : ∀ item, a = .popped .ok item → item ≠ none) : Effect s l (some a) t where
  closes u start now hl := absurd hl (hclose u start now)
  stays hshut := by
    rw [isOpen] at hshut
    cases hshut
  refuses hshut := by
    rw [isOpen] at hshut
    cases hshut
  unchanged refused := absurd ok (refused a rfl)
  fills item ha := hfills item (Option.some.inj ha)

/-- A step that leaves the queue as it is. -/
theorem effect_of_same {a : Option Answer} (refused : ∀ x, a = some x → x.code ≠ some .ok)
    (hclose : ∀ u start now, l ≠ .call u .close start now) (hq : t.q = s.q)
    (haccepted : t.accepted = s.accepted) (hpopped : t.popped = s.popped) : Effect s l a t where
  closes u start now hl := absurd hl (hclose u start now)
  stays hshut := by rwa [hq]
  refuses _ := refused
  unchanged _ := ⟨by rw [hq], haccepted, hpopped⟩
  fills item ha := absurd rfl (refused _ ha)

/-- The thread `u` gives up the mutex after it did `out` to the queue. -/
theorem leave_spec (i : Inv byte max s) (u : Nat) {out : Outcome} {q' : MsgQueue}
    (does : Does s.q out q')
    (hclose : ∀ v start now, l = .call v .close start now → out = .returns .closed) :
    Effect s l (s.leave u q' out).1 (s.leave u q' out).2 ∧
      Inv byte max (s.leave u q' out).2 := by
  have idle : ∀ x, (none : Option Wait) = some x → x.want.Fits byte := by simp
  have waiting := waiting_update i u idle
  have notClose (h : out ≠ .returns .closed) : ∀ v start now, l ≠ .call v .close start now :=
    fun v start now hl => h (hclose v start now hl)
  cases does with
  | waits w fits =>
    constructor
    · exact effect_of_same (by simp [System.leave]) (notClose (by simp)) rfl rfl rfl
    · constructor
      · exact i.valid
      · exact i.slots
      · exact i.most
      · apply waiting_update i u
        intro x hx
        obtain rfl : w = x := by simpa using hx
        exact i.slots ▸ fits
      · exact i.kept
  | refuses a code h refused =>
    have hcode : a.code ≠ some .ok := by
      rw [h]
      simpa using refused
    simp only [System.leave, record_refused hcode]
    constructor
    · refine effect_of_same ?_ (notClose ?_) rfl rfl rfl
      · rintro x ⟨⟩
        exact hcode
      · rintro ⟨⟩
        cases h
    · exact ⟨i.valid, i.slots, i.most, waiting, i.kept⟩
  | closes =>
    constructor
    · constructor
      · exact fun _ _ _ _ => rfl
      · exact fun _ => rfl
      · rintro - x ⟨⟩
        simp [Answer.code]
      · exact fun _ => ⟨rfl, rfl, rfl⟩
      · simp [System.leave]
    · exact ⟨i.valid, i.slots, i.most, waiting, i.kept⟩
  | pushes item queue isOpen valid hmax hbyte h =>
    constructor
    · exact effect_of_ok isOpen rfl (notClose (by simp)) (by simp)
    · constructor
      · exact valid
      · exact hbyte.trans i.slots
      · exact hmax.trans i.most
      · exact waiting
      · change s.accepted ++ [item] = s.popped ++ queue.contents
        rw [h, i.kept, List.append_assoc]
  | pops item queue isOpen valid hmax hbyte h =>
    constructor
    · exact effect_of_ok isOpen rfl (notClose (by simp)) (by simp)
    · constructor
      · exact valid
      · exact hbyte.trans i.slots
      · exact hmax.trans i.most
      · exact waiting
      · change s.accepted = s.popped ++ [item] ++ queue.contents
        rw [i.kept, h, List.append_assoc, List.singleton_append]

theorem step_spec (i : Inv byte max s) (l : Label) (h : Enabled byte s l) :
    ∃ a t, step s l = .ok (a, t) ∧ Effect s l a t ∧ Inv byte max t := by
  cases l with
  | call u op start now =>
    obtain ⟨out, q', hcall, does⟩ := call_does i.valid op (i.slots ▸ h.2) start now
    obtain ⟨effect, inv⟩ := leave_spec (l := .call u op start now) i u does (by
      rintro v start' now' ⟨⟩
      have hclose : s.q.close = .ok (out, q') := hcall
      unfold close at hclose
      simp only [Except.ok.injEq, Prod.mk.injEq] at hclose
      exact hclose.1.symm)
    exact ⟨_, _, by rw [step, hcall, ok_bind], effect, inv⟩
  | wake u result now =>
    cases hw : s.waiting u with
    | none => exact absurd hw h
    | some w =>
      obtain ⟨out, q', hresume, does⟩ :=
        resume_does i.valid w (i.slots ▸ i.waiting u w hw) result now
      obtain ⟨effect, inv⟩ := leave_spec (l := .wake u result now) i u does (by simp)
      refine ⟨_, _, ?_, effect, inv⟩
      rw [step, hw]
      dsimp only
      rw [hresume, ok_bind]

/-- A queue without threads in it. -/
def start (q : MsgQueue) : System := ⟨q, fun _ => none, [], []⟩

/-- **The message queue is a bounded queue that can be closed.** Over every run of
calls and wake-ups of any threads, what was popped is a prefix of what was pushed
and the rest is in the queue, which never holds more than `max` items. A call that
returns an error leaves the queue as it is, and none returns zero once the queue is
closed. -/
theorem msgqueue_runs (byte : Nat) {buffer : List UInt8} {max : Nat} {q : MsgQueue}
    (hinit : init buffer byte max = (.ok, some q)) (hbuffer : buffer.length = max * byte)
    (ls : List Label) (h : Meets step (Enabled byte) (start q) ls) :
    Along step (Good max) Effect (start q) ls := by
  unfold init at hinit
  split at hinit
  · cases hinit
  · rename_i sizes
    obtain rfl : (⟨Queue.init buffer byte max, false⟩ : MsgQueue) = q := by simpa using hinit
    have inv : Inv byte max (start ⟨Queue.init buffer byte max, false⟩) := by
      constructor
      · exact Queue.init_valid (by omega) (by omega) hbuffer
      · rfl
      · rfl
      · simp [start]
      · rfl
    exact along_of_meets (fun _ i => i.good) (fun _ l i hl => step_spec i l hl) inv h

/-- Two slots of one byte: a pop waits, a push wakes it, the ring wraps around, a push
times out on the full queue, and the queue is closed. -/
theorem msgqueue_runs_wrap :
    Along step (Good 2) Effect (start ⟨Queue.init [0, 0] 1 2, false⟩)
      [.call 1 .pop 0 0, .call 2 (.push [7]) 0 0, .wake 1 .ok 0, .call 2 (.tryPush [8]) 0 0,
        .call 2 (.push [9]) 0 0, .call 3 (.pushFor [5] 10) 0 0, .wake 3 .etimedout 12,
        .call 1 (.popFor 5) 20 20, .call 4 .close 0 0, .call 1 .pop 0 0] := by
  apply msgqueue_runs 1 rfl rfl
  decide

end Coter.MsgQueue
