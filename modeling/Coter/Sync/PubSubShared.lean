import Coter.Lib.Sections
import Coter.Sync.PubSubRun
import Coter.Sync.RwLockRoles

/-!
# The bus among threads

`ct_pubsub` with its portable `rwlock_`. A step of a thread goes up to a section of the lock, or
is one turn of a loop over the array. What the lock calls return is ignored, as in the source,
and callbacks do not call back into the bus.

* `Section.turn`: the calls turn by turn;
* `bus`: each call in turns and as a whole, with the proof that they agree.
-/

namespace Coter.PubSub

open Lib.ByteOrder Lib.Sections

/-- Where a call stands between the lock and the unlock. -/
inductive Section
  | publishes (i : Nat) (calls : List Call)
  | subscribes
  | unsubscribes (i : Nat) (ret : Int)
  deriving DecidableEq, Repr

/-- A call that takes the lock for writing. -/
def Op.writes : Op → Bool
  | .publish .. => false
  | .subscribe .. | .unsubscribe .. => true

/-- A call that returns before it takes the lock. -/
def Op.invalid : Op → Bool
  | .publish .. => false
  | .subscribe _ cb .. | .unsubscribe _ cb => cb = 0

def Op.first : Op → Section
  | .publish .. => .publishes 0 []
  | .subscribe .. => .subscribes
  | .unsubscribe .. => .unsubscribes 0 (-1)

abbrev Turn := (Section ⊕ (Int × List Call)) × CtArray UInt8

variable (host : Endian)

/-- A turn of the loop of `ct_pubsub_publish`. -/
def publishTurn (type : BitVec 32) (data : BitVec 64) (a : CtArray UInt8) (i : Nat)
    (calls : List Call) : Except Fault Turn :=
  if i < a.size then do
    let sub ← a.at i
    match sub.map (Sub.ofCells host) with
    | some sub =>
      if sub.type = type then
        .ok (.inl (.publishes (usize (i + 1)) (calls ++ [⟨sub.cb, type, data, sub.userData⟩])), a)
      else .ok (.inl (.publishes (usize (i + 1)) calls), a)
    | none => .ok (.inl (.publishes (usize (i + 1)) calls), a)
  else .ok (.inr (0, calls), a)

/-- A turn of the loop of `ct_pubsub_unsubscribe`. -/
def unsubscribeTurn (type : BitVec 32) (cb : BitVec 64) (a : CtArray UInt8) (i : Nat) (ret : Int) :
    Except Fault Turn :=
  if i < a.size then do
    match ← a.at i with
    | some sub =>
      if (Sub.ofCells host sub).matches type cb then
        let (_, a) ← CtArray.step zeroByte a (.erase i : CtArray.Op UInt8 subSize)
        .ok (.inl (.unsubscribes (usize (usizeSub i 1 + 1)) 0), a)
      else .ok (.inl (.unsubscribes (usize (i + 1)) ret), a)
    | none => .ok (.inl (.unsubscribes (usize (i + 1)) ret), a)
  else .ok (.inr (ret, []), a)

/-- What `ct_pubsub_subscribe` does under the lock. -/
def subscribeTurn (type : BitVec 32) (cb userData : BitVec 64) (pad : BitVec 32)
    (g : Option (Grant UInt8)) (a : CtArray UInt8) : Except Fault Turn := do
  let sub : Sub := ⟨type, cb, userData⟩
  let (ok, a) ← CtArray.step zeroByte a (.push (some (sub.elem host pad)) g)
  if !ok then .ok (.inr (-1, []), a) else .ok (.inr (0, []), a)

/-- The next turn of a call; a call is only ever in its own section. -/
def turn (op : Op) (a : CtArray UInt8) (sec : Section) : Except Fault Turn :=
  match op, sec with
  | .publish type data, .publishes i calls => publishTurn host type data a i calls
  | .subscribe type cb userData pad g, .subscribes => subscribeTurn host type cb userData pad g a
  | .unsubscribe type cb, .unsubscribes i ret => unsubscribeTurn host type cb a i ret
  | _, _ => .error .null

variable {host} {a b : CtArray UInt8}

/-! ## Alone -/

theorem publish_leads {type : BitVec 32} {data : BitVec 64} {fuel i : Nat} {rest : List Call}
    (calls : List Call) (h : publishLoop host type data a fuel i = .ok rest) :
    Leads (turn host (.publish type data)) a (.publishes i calls) (0, calls ++ rest) a := by
  induction fuel generalizing i calls rest with
  | zero =>
    unfold publishLoop at h
    split at h
    · cases h
    · next behind =>
      cases h
      refine .ends ?_
      rw [List.append_nil]
      exact if_neg behind
  | succ fuel ih =>
    unfold publishLoop at h
    split at h
    · next ahead =>
      obtain ⟨sub, hat, h⟩ := ok_of_bind h
      obtain ⟨more, hmore, h⟩ := ok_of_bind h
      have taken (calls' : List Call) (rest : List Call) (same : calls' ++ more = calls ++ rest)
          (hturn : publishTurn host type data a i calls =
            .ok (.inl (.publishes (usize (i + 1)) calls'), a)) :
          Leads (turn host (.publish type data)) a (.publishes i calls) (0, calls ++ rest) a := by
        have leads := ih calls' hmore
        rw [same] at leads
        exact .goes hturn leads
      cases hsub : sub.map (Sub.ofCells host) with
      | none =>
        rw [hsub] at h
        cases h
        refine taken calls rest rfl ?_
        rw [publishTurn, if_pos ahead, hat, ok_bind, hsub]
      | some sub =>
        rw [hsub] at h
        dsimp only at h
        split at h
        · next typed =>
          cases h
          refine taken (calls ++ [⟨sub.cb, type, data, sub.userData⟩]) _ (by simp) ?_
          rw [publishTurn, if_pos ahead, hat, ok_bind, hsub]
          exact if_pos typed
        · next other =>
          cases h
          refine taken calls rest rfl ?_
          rw [publishTurn, if_pos ahead, hat, ok_bind, hsub]
          exact if_neg other
    · next behind =>
      cases h
      refine .ends ?_
      rw [List.append_nil]
      exact if_neg behind

theorem unsubscribe_leads {type : BitVec 32} {cb : BitVec 64} {fuel i : Nat} {ret ret' : Int}
    (h : unsubscribeLoop host type cb fuel i ret a = .ok (ret', b)) :
    Leads (turn host (.unsubscribe type cb)) a (.unsubscribes i ret) (ret', []) b := by
  induction fuel generalizing i ret a with
  | zero =>
    unfold unsubscribeLoop at h
    split at h
    · cases h
    · next behind =>
      cases h
      exact .ends (if_neg behind)
  | succ fuel ih =>
    unfold unsubscribeLoop at h
    split at h
    · next ahead =>
      obtain ⟨sub, hat, h⟩ := ok_of_bind h
      cases sub with
      | none =>
        refine .goes ?_ (ih h)
        change unsubscribeTurn host type cb a i ret = _
        rw [unsubscribeTurn, if_pos ahead, hat, ok_bind]
      | some sub =>
        dsimp only at h
        split at h
        · next hit =>
          obtain ⟨r, herase, h⟩ := ok_of_bind h
          refine .goes ?_ (ih h)
          change unsubscribeTurn host type cb a i ret = _
          rw [unsubscribeTurn, if_pos ahead, hat, ok_bind]
          dsimp only
          rw [if_pos hit, herase, ok_bind]
        · next other =>
          refine .goes ?_ (ih h)
          change unsubscribeTurn host type cb a i ret = _
          rw [unsubscribeTurn, if_pos ahead, hat, ok_bind]
          exact if_neg other
    · next behind =>
      cases h
      exact .ends (if_neg behind)

theorem step_leads (op : Op) {out : Int × List Call} (valid : op.invalid = false)
    (h : step host a op = .ok (out, b)) : Leads (turn host op) a op.first out b := by
  cases op with
  | publish type data =>
    obtain ⟨r, hr, h⟩ := ok_of_bind h
    cases h
    obtain ⟨calls, hcalls, hr⟩ := ok_of_bind hr
    cases hr
    exact publish_leads [] hcalls
  | unsubscribe type cb =>
    obtain ⟨r, hr, h⟩ := ok_of_bind h
    cases h
    have given : ¬ cb = 0 := of_decide_eq_false valid
    rw [unsubscribe, if_neg given] at hr
    exact unsubscribe_leads hr
  | subscribe type cb userData pad g =>
    obtain ⟨r, hr, h⟩ := ok_of_bind h
    cases h
    have given : ¬ cb = 0 := of_decide_eq_false valid
    rw [subscribe, if_neg given] at hr
    obtain ⟨pushed, hpush, hr⟩ := ok_of_bind hr
    refine .ends ?_
    change subscribeTurn host type cb userData pad g a = _
    rw [subscribeTurn, hpush, ok_bind]
    dsimp only at hr ⊢
    split at hr <;> cases hr
    · next refused => rw [if_pos refused]
    · next accepted => rw [if_neg accepted]

theorem turn_reads (op : Op) (sec : Section) {x : Section ⊕ (Int × List Call)}
    (reads : op.writes = false) (h : turn host op a sec = .ok (x, b)) : b = a := by
  cases op with
  | subscribe | unsubscribe => cases reads
  | publish type data =>
    cases sec with
    | subscribes | unsubscribes => cases h
    | publishes i calls =>
      change publishTurn host type data a i calls = _ at h
      unfold publishTurn at h
      split at h
      · obtain ⟨sub, -, h⟩ := ok_of_bind h
        split at h
        · split at h <;> cases h <;> rfl
        · cases h
          rfl
      · cases h
        rfl

/-! ## Threads -/

/-- A call that takes the lock. -/
abbrev Request := { op : Op // op.invalid = false }

def bus (host : Endian) : Object (CtArray UInt8) Request Section (Int × List Call) Fault where
  whole a op := step host a op.1
  first op := op.1.first
  turn op := turn host op.1
  writes op := op.1.writes
  alone _ op _ _ := step_leads op.1 op.2
  reads op _ sec _ _ := turn_reads op.1 sec

/-- Where a thread stands. -/
inductive Pc
  | outside
  | locking (op : Request)
  | inside (op : Request) (sec : Section)
  | unlocks (write : Bool)

/-- What the thread has to do with the lock. -/
def Pc.role : Pc → RwLock.Role
  | .outside => .idle
  | .locking op => if op.1.writes then .waitsWrite else .waitsRead
  | .inside op _ => if op.1.writes then .writes else .reads
  | .unlocks write => if write then .writes else .reads

def Pc.section : Pc → Option (Request × Section)
  | .inside op sec => some (op, sec)
  | .outside | .locking _ | .unlocks _ => none

/-- The lock, the array, the threads, and the calls whose work is done with what they return, in
their order. -/
structure Bus where
  lock : RwLock.System
  a : CtArray UInt8
  pc : Nat → Pc
  done : List (Request × (Int × List Call))

/-- `ct_pubsub_init` -/
def Bus.start : Bus := ⟨RwLock.start, init, fun _ => .outside, []⟩

/-- A call begins with its first section of the lock; a blocked thread is woken without a signal,
and a woken one has the lock's mutex again; a turn under the lock; and the unlock, with the writer
that it wakes. -/
inductive Label
  | call (t : Nat) (op : Request)
  | wake (t : Nat)
  | resume (t : Nat)
  | turn (t : Nat)
  | unlock (t : Nat) (woke : Option Nat)

namespace Bus

/-- After a turn of a wait loop of the lock. -/
def locked (op : Request) : RwLock.Turn → Pc
  | .returns _ => .inside op op.1.first
  | .waits => .locking op

/-- A step of the lock, after which the thread stands at `pc`. -/
def moves (s : Bus) (t : Nat) (pc : Pc) (l : RwLock.Label) : Option Bus :=
  (RwLock.step s.lock l).map fun lock => { s with lock, pc := Function.update s.pc t pc }

/-- The thread calls `ct_rwlock_rdlock` or `ct_rwlock_wrlock`. -/
def call (s : Bus) (t : Nat) (op : Request) : Option Bus :=
  if op.1.writes then s.moves t (locked op (RwLock.wrlock s.lock.lock).1) (.wrlock t)
  else s.moves t (locked op (RwLock.rdlock s.lock.lock).1) (.rdlock t)

/-- The thread's condition wait returns. -/
def resume (s : Bus) (t : Nat) (op : Request) : Option Bus :=
  if op.1.writes then
    s.moves t (locked op (RwLock.wrlock (RwLock.unwait s.lock.lock)).1) (.resumeWriter t)
  else s.moves t (locked op (RwLock.rdlock s.lock.lock).1) (.resumeReader t)

def turn (host : Endian) (s : Bus) (t : Nat) (op : Request) (sec : Section) : Option Bus :=
  match PubSub.turn host op.1 s.a sec with
  | .ok (.inl sec, a) => some { s with a, pc := Function.update s.pc t (.inside op sec) }
  | .ok (.inr out, a) =>
    some { s with
      a
      pc := Function.update s.pc t (.unlocks op.1.writes)
      done := s.done ++ [(op, out)] }
  | .error _ => none

/-- The next state; `none` where the label is not enabled. There are `n` threads. -/
def step (host : Endian) (n : Nat) (s : Bus) : Label → Option Bus
  | .call t op =>
    match s.pc t with
    | .outside => if t < n then s.call t op else none
    | .locking _ | .inside .. | .unlocks _ => none
  | .wake t =>
    match s.pc t with
    | .locking op => s.moves t (.locking op) (if op.1.writes then .wakeWriter t else .wakeReader t)
    | .outside | .inside .. | .unlocks _ => none
  | .resume t =>
    match s.pc t with
    | .locking op => s.resume t op
    | .outside | .inside .. | .unlocks _ => none
  | .turn t =>
    match s.pc t with
    | .inside op sec => s.turn host t op sec
    | .outside | .locking _ | .unlocks _ => none
  | .unlock t woke =>
    match s.pc t with
    | .unlocks write => s.moves t .outside (if write then .wrunlock t woke else .rdunlock t woke)
    | .outside | .locking _ | .inside .. => none

end Bus

end Coter.PubSub
