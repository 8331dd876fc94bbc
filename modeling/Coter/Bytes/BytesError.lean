import Coter.Bytes.BytesRun

/-!
# The error flag of a byte buffer

* `Outside`: the calls that ask for a range that does not fit;
* `rejected`, `fits_flag`: a call that moves all or nothing leaves the buffer as it
  was, but for the flag, exactly if its range does not fit;
* `all_or_nothing`: this with the reading calls and the views;
* `call_flag`: what every call does to the flag;
* `flag_runs`: over a run, the flag reports such a call since it was last cleared
  if no read-out buffer is compacted while the flag is set.
-/

namespace Coter.Bytes

open Lib.ByteOrder Lib.Machine

/-! ## Ranges -/

/-- The call reports errors, and the range it asks for does not fit. -/
def Outside (b : Bytes) : Call → Prop
  | .seek offset | .reseek offset => b.len < offset
  | .skip length | .takeBytes _ length => b.len < b.pos + length
  | .commit length | .fill _ length | .putBytes _ length => b.cap < b.pos + length
  | .overfill _ length => b.cap < length
  | .setBytes offset _ length => b.len < offset + length
  | .pokeBytes offset _ length => b.pos + offset < 0 ∨ (b.len : Int) < b.pos + offset + length
  | .put w _ => b.cap < b.pos + w.bytes
  | .take w => b.len < b.pos + w.bytes
  | .set w offset _ => b.len < offset + w.bytes
  | .rewind | .clear | .setEndian _ | .setHlswap _ | .truncate _ | .compact | .find .. |
    .getBytes .. | .peekBytes .. | .peek .. | .get .. => False

instance (b : Bytes) : DecidablePred (Outside b)
  | .seek _ | .reseek _ | .skip _ | .takeBytes .. | .commit _ | .fill .. | .putBytes .. |
    .overfill .. | .setBytes .. | .put .. | .take _ | .set .. => inferInstanceAs (Decidable (_ < _))
  | .pokeBytes .. => inferInstanceAs (Decidable (_ ∨ _))
  | .rewind | .clear | .setEndian _ | .setHlswap _ | .truncate _ | .compact | .find .. |
    .getBytes .. | .peekBytes .. | .peek .. | .get .. => inferInstanceAs (Decidable False)

/-- The calls that do all that they are asked for, or nothing. -/
def Checked : Call → Prop
  | .put .. | .take _ | .set .. | .setBytes .. | .pokeBytes .. | .seek _ | .reseek _ => True
  | .rewind | .clear | .setEndian _ | .setHlswap _ | .skip _ | .commit _ | .truncate _ | .compact |
    .find .. | .fill .. | .overfill .. | .getBytes .. | .peekBytes .. | .takeBytes .. |
    .putBytes .. | .peek .. | .get .. => False

/-- The calls that only read. -/
def Reads : Call → Prop
  | .getBytes .. | .peekBytes .. | .peek .. | .get .. => True
  | .rewind | .clear | .setEndian _ | .setHlswap _ | .seek _ | .reseek _ | .skip _ | .commit _ |
    .truncate _ | .compact | .find .. | .fill .. | .overfill .. | .setBytes .. | .pokeBytes .. |
    .takeBytes .. | .putBytes .. | .put .. | .take _ | .set .. => False

/-- The arguments are of their C types, as far as it matters: a relative offset is an `int`. -/
def Call.Typed : Call → Prop
  | .pokeBytes offset .. => -(2 ^ 31) ≤ offset ∧ offset < 2 ^ 31
  | _ => True

instance : DecidablePred Call.Typed
  | .pokeBytes .. => inferInstanceAs (Decidable (_ ∧ _))
  | .rewind | .clear | .setEndian _ | .setHlswap _ | .seek _ | .reseek _ | .skip _ | .commit _ |
    .truncate _ | .compact | .find .. | .fill .. | .overfill .. | .getBytes .. | .setBytes .. |
    .peekBytes .. | .takeBytes .. | .putBytes .. | .put .. | .take _ | .peek .. | .get .. |
    .set .. => inferInstanceAs (Decidable True)

/-- What a call that fails returns. -/
def failure : Call → Answer
  | .put .. => .done
  | .take w => .value w 0
  | _ => .int (-1)

variable {m m' : Mem} {b b' : Bytes} {n offset : Nat} {a : Answer}

theorem width_pos (w : Width) : 0 < w.bytes := by cases w <;> decide

/-! The checks of the source, and the ranges they stand for. -/

theorem put_outside (v : Valid m b) {w : Width} :
    b.writable < w.bytes ↔ b.cap < b.pos + w.bytes := by
  have hpos := v.pos
  have hlen := v.len
  rw [writable_eq v]
  omega

theorem take_outside (v : Valid m b) {w : Width} :
    b.readable < w.bytes ↔ b.len < b.pos + w.bytes := by
  have hpos := v.pos
  rw [readable_eq v]
  omega

theorem set_outside (v : Valid m b) {w : Width} :
    (b.len ≤ offset ∨ usizeSub b.len offset < w.bytes) ↔ b.len < offset + w.bytes := by
  have hlen := v.len
  have hsmall := v.small
  have hw := width_pos w
  by_cases hoff : b.len ≤ offset
  · simp only [hoff, true_or, true_iff]
    omega
  · rw [usizeSub_of_le (by omega) (by omega)]
    omega

theorem setBytes_outside (v : Valid m b) :
    (b.len < offset ∨ usizeSub b.len offset < n) ↔ b.len < offset + n := by
  have hlen := v.len
  have hsmall := v.small
  by_cases hoff : b.len < offset
  · simp only [hoff, true_or, true_iff]
    omega
  · rw [usizeSub_of_le (by omega) (by omega)]
    omega

theorem absPos_eq (v : Valid m b) {offset : Int} (low : -(2 ^ 31) ≤ offset)
    (high : offset < 2 ^ 31) : b.absPos offset = b.pos + offset := by
  have hpos := v.pos
  have hlen := v.len
  have hsmall := v.small
  exact i64_of_range (by omega) (by omega)

theorem pokeBytes_outside (v : Valid m b) {offset : Int} (low : -(2 ^ 31) ≤ offset)
    (high : offset < 2 ^ 31) :
    (b.absPos offset < 0 ∨ b.len < b.absPos offset ∨ b.behind (b.absPos offset) < n) ↔
      b.pos + offset < 0 ∨ (b.len : Int) < b.pos + offset + n := by
  rw [absPos_eq v low high]
  by_cases inside : 0 ≤ b.pos + offset ∧ b.pos + offset ≤ b.len
  · rw [behind_eq v inside.1 inside.2]
    omega
  · omega

/-! ## One call -/

theorem clamp_flag (length limit : Nat) :
    (b.clamp length limit).2.overflow = (b.overflow || decide (limit < length)) := by
  unfold clamp
  by_cases h : limit < length
  · simp [h, fail]
  · simp [h]

section

variable {host : Endian}

/-- A range that does not fit. -/
theorem rejected (v : Valid m b) {c : Call} (checked : Checked c) (typed : c.Typed)
    (h : Outside b c) : call host m b c = .ok (failure c, b.fail, m) := by
  cases c with
  | put w x => simp only [call, put, (put_outside v).2 h, if_true, ok_bind, failure]
  | take w => simp only [call, take, (take_outside v).2 h, if_true, ok_bind, failure]
  | set w o x => simp only [call, set, if_pos ((set_outside v).2 h), ok_bind, failure]
  | setBytes o p n => simp only [call, setBytes, if_pos ((setBytes_outside v).2 h), ok_bind, failure]
  | pokeBytes o p n =>
    have out := (pokeBytes_outside v typed.1 typed.2).2 h
    simp only [call, pokeBytes, if_pos out, ok_bind, failure]
  | seek o =>
    have out : b.len < o := h
    simp only [call, seek, if_pos out, failure]
  | reseek o =>
    have out : b.len < o := h
    simp only [call, reseek, if_pos out, failure]
  | _ => exact checked.elim

/-! What the calls that move bytes leave of the flag. -/

theorem put_flag {w : Width} {x : BitVec w.bits} (h : put host w b m x = .ok (b', m'))
    (fits : ¬ b.writable < w.bytes) : b'.overflow = b.overflow := by
  unfold put at h
  rw [if_neg fits] at h
  obtain ⟨m₁, -, h⟩ := ok_of_bind h
  cases h
  rfl

theorem take_flag {w : Width} {x : BitVec w.bits} (h : take host w b m = .ok (x, b'))
    (fits : ¬ b.readable < w.bytes) : b'.overflow = b.overflow := by
  unfold take at h
  rw [if_neg fits] at h
  obtain ⟨bytes, -, h⟩ := ok_of_bind h
  cases h
  rfl

theorem set_flag {w : Width} {x : BitVec w.bits} {r : Int}
    (h : set host w b m offset x = .ok (r, b', m'))
    (fits : ¬ (b.len ≤ offset ∨ usizeSub b.len offset < w.bytes)) : b'.overflow = b.overflow := by
  unfold set at h
  rw [if_neg fits] at h
  obtain ⟨m₁, -, h⟩ := ok_of_bind h
  cases h
  rfl

/-- The guarded copy that ends the calls on bytes leaves the buffer as it is, or as it
is past the copy. -/
theorem guarded_copy {b₀ b₁ : Bytes} {o : Nat} {bytes : List UInt8} {r₁ r : Int}
    (h : (if n = 0 then .ok (0, b₀, m)
      else do
        let m ← b₀.store m o bytes
        .ok (r₁, b₁, m) : Except Fault (Int × Bytes × Mem)) = .ok (r, b', m')) :
    b' = b₀ ∨ b' = b₁ := by
  by_cases hn : n = 0
  · rw [if_pos hn] at h
    cases h
    exact Or.inl rfl
  · rw [if_neg hn] at h
    obtain ⟨m₁, -, h⟩ := ok_of_bind h
    cases h
    exact Or.inr rfl

/-- The end of `ct_bytes_set_bytes` and `ct_bytes_poke_bytes`. -/
theorem copy_in_flag {p : Option (Nat → UInt8)} {r : Int}
    (h : (match p with
      | none => .ok (0, b, m)
      | some p =>
        if n = 0 then .ok (0, b, m)
        else do
          let m ← b.store m offset ((List.range n).map p)
          .ok (0, b, m) : Except Fault (Int × Bytes × Mem)) = .ok (r, b', m')) : b' = b := by
  cases p with
  | none =>
    cases h
    rfl
  | some p => exact (guarded_copy h).elim id id

theorem fill_flag {bt : UInt8} {r : Int} (h : b.fill m bt n = .ok (r, b', m')) :
    b'.overflow = (b.overflow || decide (b.writable < n)) := by
  rw [← clamp_flag]
  unfold fill at h
  obtain rfl | rfl := guarded_copy h <;> rfl

theorem overfill_flag {bt : UInt8} {r : Int} (h : b.overfill m bt n = .ok (r, b', m')) :
    b'.overflow = (b.overflow || decide (b.cap < n)) := by
  rw [← clamp_flag]
  unfold overfill at h
  obtain rfl | rfl := guarded_copy h <;> rfl

theorem takeBytes_flag {p : Bool} {r : Int} {bytes : List UInt8}
    (h : b.takeBytes m p n = .ok (r, bytes, b')) :
    b'.overflow = (b.overflow || decide (b.readable < n)) := by
  rw [← clamp_flag]
  unfold takeBytes at h
  generalize b.clamp n b.readable = cut at h ⊢
  obtain ⟨k, b₁⟩ := cut
  dsimp only at h
  split at h
  · cases h
    rfl
  · obtain ⟨bytes₁, -, h⟩ := ok_of_bind h
    simp only [Except.ok.injEq, Prod.mk.injEq] at h
    obtain ⟨-, -, rfl⟩ := h
    rfl

theorem putBytes_flag {p : Option (Nat → UInt8)} {r : Int}
    (h : b.putBytes m p n = .ok (r, b', m')) :
    b'.overflow = (b.overflow || decide (b.writable < n)) := by
  rw [← clamp_flag]
  unfold putBytes at h
  cases p with
  | none =>
    cases h
    rfl
  | some p => obtain rfl | rfl := guarded_copy h <;> rfl

theorem compact_flag (h : b.compact m = .ok (b', m')) :
    b'.overflow = (b.overflow && !decide (0 < b.pos ∧ b.len ≤ b.pos)) := by
  unfold compact at h
  by_cases hzero : b.pos = 0
  · rw [if_pos hzero] at h
    cases h
    simp [hzero]
  · rw [if_neg hzero] at h
    have hpos : 0 < b.pos := Nat.pos_of_ne_zero hzero
    by_cases hall : b.len ≤ b.pos
    · rw [if_pos hall] at h
      cases h
      simp [clear, hpos, hall]
    · rw [if_neg hall] at h
      obtain ⟨bytes, -, h⟩ := ok_of_bind h
      obtain ⟨m₁, -, h⟩ := ok_of_bind h
      cases h
      simp [hall]

/-- A range that fits. -/
theorem fits_flag (v : Valid m b) {c : Call} (checked : Checked c) (typed : c.Typed)
    (fits : ¬ Outside b c) (h : call host m b c = .ok (a, b', m')) :
    b'.overflow = b.overflow := by
  cases c with
  | put w x =>
    obtain ⟨⟨b₁, m₁⟩, hput, h⟩ := ok_of_bind h
    cases h
    exact put_flag hput (fun hout => fits ((put_outside v).1 hout))
  | take w =>
    obtain ⟨⟨x, b₁⟩, htake, h⟩ := ok_of_bind h
    cases h
    exact take_flag htake (fun hout => fits ((take_outside v).1 hout))
  | set w o x =>
    obtain ⟨⟨r, b₁, m₁⟩, hset, h⟩ := ok_of_bind h
    cases h
    exact set_flag hset (fun hout => fits ((set_outside v).1 hout))
  | setBytes o p n =>
    obtain ⟨⟨r, b₁, m₁⟩, hset, h⟩ := ok_of_bind h
    cases h
    unfold setBytes at hset
    rw [if_neg (fun hout => fits ((setBytes_outside v).1 hout))] at hset
    rw [copy_in_flag hset]
  | pokeBytes o p n =>
    obtain ⟨⟨r, b₁, m₁⟩, hpoke, h⟩ := ok_of_bind h
    cases h
    unfold pokeBytes at hpoke
    dsimp only at hpoke
    rw [if_neg (fun hout => fits ((pokeBytes_outside v typed.1 typed.2).1 hout))] at hpoke
    rw [copy_in_flag hpoke]
  | seek o =>
    have inside : ¬ b.len < o := fits
    simp only [call, seek, if_neg inside] at h
    cases h
    rfl
  | reseek o =>
    have inside : ¬ b.len < o := fits
    simp only [call, reseek, if_neg inside] at h
    cases h
    rfl
  | _ => exact checked.elim

/-- What a call leaves of the flag. -/
def flagAfter (b : Bytes) : Call → Bool
  | .clear => false
  | .compact => b.overflow && !decide (0 < b.pos ∧ b.len ≤ b.pos)
  | c => b.overflow || decide (Outside b c)

theorem call_flag (v : Valid m b) {c : Call} (typed : c.Typed)
    (h : call host m b c = .ok (a, b', m')) : b'.overflow = flagAfter b c := by
  have checkedFlag (checked : Checked c) : b'.overflow = (b.overflow || decide (Outside b c)) := by
    by_cases out : Outside b c
    · rw [rejected v checked typed out] at h
      cases h
      simp [fail, out]
    · simp [fits_flag v checked typed out h, out]
  have hpos := v.pos
  have hlen := v.len
  have read (n : Nat) : (b.overflow || decide (b.readable < n)) =
      (b.overflow || decide (b.len < b.pos + n)) := by
    rw [readable_eq v, decide_eq_decide.2 (Nat.sub_lt_iff_lt_add' hpos)]
  have write (n : Nat) : (b.overflow || decide (b.writable < n)) =
      (b.overflow || decide (b.cap < b.pos + n)) := by
    rw [writable_eq v, decide_eq_decide.2 (Nat.sub_lt_iff_lt_add' (Nat.le_trans hpos hlen))]
  cases c with
  | put | take | set | setBytes | pokeBytes | seek | reseek => exact checkedFlag trivial
  | clear =>
    cases h
    rfl
  | rewind | setEndian | setHlswap =>
    cases h
    exact (Bool.or_false _).symm
  | truncate n =>
    cases h
    unfold truncate
    split <;> exact (Bool.or_false _).symm
  | find | getBytes | peekBytes | peek | get =>
    obtain ⟨r, -, h⟩ := ok_of_bind h
    cases h
    exact (Bool.or_false _).symm
  | compact =>
    obtain ⟨⟨b₁, m₁⟩, hcompact, h⟩ := ok_of_bind h
    cases h
    exact compact_flag hcompact
  | skip n =>
    cases h
    exact (clamp_flag n b.readable).trans (read n)
  | commit n =>
    cases h
    exact (clamp_flag n b.writable).trans (write n)
  | fill bt n =>
    obtain ⟨⟨r, b₁, m₁⟩, hfill, h⟩ := ok_of_bind h
    cases h
    exact (fill_flag hfill).trans (write n)
  | overfill bt n =>
    obtain ⟨⟨r, b₁, m₁⟩, hfill, h⟩ := ok_of_bind h
    cases h
    exact overfill_flag hfill
  | takeBytes p n =>
    obtain ⟨⟨r, bytes, b₁⟩, htake, h⟩ := ok_of_bind h
    cases h
    exact (takeBytes_flag htake).trans (read n)
  | putBytes p n =>
    obtain ⟨⟨r, b₁, m₁⟩, hput, h⟩ := ok_of_bind h
    cases h
    exact (putBytes_flag hput).trans (write n)

theorem reads_only (v : Valid m b) {c : Call} (reads : Reads c) :
    ∃ a, call host m b c = .ok (a, b, m) := by
  cases c with
  | getBytes o p n =>
    obtain ⟨⟨r, bytes⟩, h⟩ := getBytes_spec v o p n
    exact ⟨_, by rw [call, h, ok_bind]⟩
  | peekBytes o p n =>
    obtain ⟨⟨r, bytes⟩, h⟩ := peekBytes_spec v o p n
    exact ⟨_, by rw [call, h, ok_bind]⟩
  | peek w o =>
    obtain ⟨x, h⟩ := peek_spec host (w := w) v o
    exact ⟨_, by rw [call, h, ok_bind]⟩
  | get w o =>
    obtain ⟨x, h⟩ := get_spec host (w := w) v o
    exact ⟨_, by rw [call, h, ok_bind]⟩
  | _ => exact reads.elim

/-- A view is all that is written, and not even this if there is none. -/
theorem since_only (s : World) (name view start end_ : Nat) :
    ∃ r s', step host s (.since name view start end_) = .ok (.int r, s') ∧ s'.mem = s.mem ∧
      (∀ other, other ≠ view → s'.bufs other = s.bufs other) ∧ (r ≠ 0 → s' = s) := by
  cases hview : (s.bufs name).since start end_ with
  | none =>
    have failed : step host s (.since name view start end_) = .ok (.int (-1), s) := by
      simp only [step, hview, World.bindView]
    exact ⟨-1, s, failed, rfl, fun _ _ => rfl, fun _ => rfl⟩
  | some b =>
    have done : step host s (.since name view start end_) = .ok (.int 0, s.bind view b) := by
      simp only [step, hview, World.bindView]
    refine ⟨0, s.bind view b, done, rfl, fun other hother => ?_, fun h => absurd rfl h⟩
    exact Function.update_of_ne hother ..

end

/-- All data bytes and both cursors stay if the range does not fit, the flag if it does. -/
structure AllOrNothing (host : Endian) (m : Mem) (b : Bytes) (c : Call) : Prop where
  rejects : Outside b c → call host m b c = .ok (failure c, b.fail, m)
  accepts : ¬ Outside b c →
    ∃ a b' m', call host m b c = .ok (a, b', m') ∧ b'.overflow = b.overflow

/-- **Errors leave the buffer alone.** The typed calls, `ct_bytes_set_bytes`,
`ct_bytes_poke_bytes` and the seeks do all or nothing; the reading calls change
nothing at all, and a view that there is not does not touch its target. -/
theorem all_or_nothing (host : Endian) {s : World} {name : Nat}
    (v : Valid s.mem (s.bufs name)) :
    (∀ c, Checked c → c.Typed → AllOrNothing host s.mem (s.bufs name) c) ∧
      (∀ c, Reads c → ∃ a, call host s.mem (s.bufs name) c = .ok (a, s.bufs name, s.mem)) ∧
      ∀ view start end_, ∃ r s', step host s (.since name view start end_) = .ok (.int r, s') ∧
        s'.mem = s.mem ∧ (∀ other, other ≠ view → s'.bufs other = s.bufs other) ∧
        (r ≠ 0 → s' = s) := by
  refine ⟨fun c checked typed => ?_, fun c reads => reads_only v reads, since_only s name⟩
  constructor
  · exact rejected v checked typed
  · intro fits
    obtain ⟨a, b', m', h, -⟩ := call_spec host v c
    exact ⟨a, b', m', h, fits_flag v checked typed fits h⟩

/-- A poke that begins in front of the buffer and one that reaches its end. -/
theorem all_or_nothing_pokes :
    AllOrNothing .little [1, 2, 3] («from» 0 3 2) (.pokeBytes (-1) (some fun _ => 7) 1) ∧
      AllOrNothing .little [1, 2, 3] («from» 0 3 2) (.pokeBytes 1 (some fun _ => 7) 1) := by
  have v : Valid [1, 2, 3] («from» 0 3 2) := from_valid 2 (by decide)
  have both := (@all_or_nothing .little ⟨[1, 2, 3], fun _ => «from» 0 3 2⟩ 0 v).1
  exact ⟨both _ trivial (by decide), both _ trivial (by decide)⟩

/-! ## Runs -/

namespace ErrorFlag

/-- One buffer, and whether a call reported an error since the flag was last cleared. -/
structure State where
  mem : Mem
  buf : Bytes
  reported : Bool

def start (mem : Mem) : State := ⟨mem, Bytes.init 0 0, false⟩

/-- Calls of a client on the buffer. A view goes elsewhere. -/
inductive Op
  | init (data cap : Nat)
  | «from» (data cap len : Nat)
  | clearError
  | since (start end_ : Nat)
  | on (c : Call)

def report (s : State) : Call → Bool
  | .clear => false
  | c => s.reported || decide (Outside s.buf c)

def step (host : Endian) (s : State) : Op → Except Fault (Answer × State)
  | .init data cap => .ok (.done, { s with buf := Bytes.init data cap, reported := false })
  | .from data cap len => .ok (.done, { s with buf := Bytes.from data cap len, reported := false })
  | .clearError => .ok (.done, { s with buf := s.buf.clearError, reported := false })
  | .since start end_ => .ok (.int (if (s.buf.since start end_).isSome then 0 else -1), s)
  | .on c => do
    let (a, buf, mem) ← call host s.mem s.buf c
    .ok (a, ⟨mem, buf, report s c⟩)

/-- A buffer is set up over memory that is there. -/
def Allowed (s : State) : Op → Prop
  | .init data cap | .from data cap _ => data + u32 cap ≤ s.mem.length
  | .on c => c.Typed
  | .clearError | .since .. => True

instance (s : State) : DecidablePred (Allowed s)
  | .init .. | .from .. => inferInstanceAs (Decidable (_ ≤ _))
  | .on c => inferInstanceAs (Decidable c.Typed)
  | .clearError | .since .. => inferInstanceAs (Decidable True)

/-- The flag tells whether there was an error. -/
def Faithful (s : State) : Prop := s.buf.overflow = s.reported

/-- Compacting does not change the flag. -/
def CompactKeeps (s : State) (op : Op) (_ : Answer) (t : State) : Prop :=
  op = .on .compact → t.buf.overflow = s.buf.overflow

/-- No buffer that was read to its end is compacted while the flag is set. -/
def Unflagged (s : State) : Op → Prop
  | .on .compact => ¬ (s.buf.overflow = true ∧ 0 < s.buf.pos ∧ s.buf.len ≤ s.buf.pos)
  | _ => True

structure Inv (s : State) : Prop where
  valid : Valid s.mem s.buf
  faithful : Faithful s

variable {host : Endian} {s t : State} {op : Op}

theorem report_compact (s : State) : report s .compact = s.reported := Bool.or_false _

theorem flagAfter_eq (faithful : Faithful s) {c : Call} (h : Unflagged s (.on c)) :
    flagAfter s.buf c = report s c := by
  have same : s.buf.overflow = s.reported := faithful
  cases c with
  | clear => rfl
  | compact =>
    have quiet : ¬ (s.buf.overflow = true ∧ 0 < s.buf.pos ∧ s.buf.len ≤ s.buf.pos) := h
    rw [flagAfter, report_compact, ← same]
    cases hflag : s.buf.overflow with
    | false => rfl
    | true => rw [decide_eq_false (fun h => quiet ⟨hflag, h⟩), Bool.not_false, Bool.and_self]
  | _ => rw [flagAfter, report, same] <;> nofun

theorem step_keeps (i : Inv s) (allowed : Allowed s op) (h : Unflagged s op) :
    ∃ a t, step host s op = .ok (a, t) ∧ CompactKeeps s op a t ∧ Inv t := by
  obtain ⟨v, faithful⟩ := i
  cases op with
  | init data cap => exact ⟨_, _, rfl, nofun, init_valid allowed, rfl⟩
  | «from» data cap len => exact ⟨_, _, rfl, nofun, from_valid len allowed, rfl⟩
  | clearError => exact ⟨_, _, rfl, nofun, ⟨v.pos, v.len, v.small, v.backed⟩, rfl⟩
  | since start end_ => exact ⟨_, _, rfl, nofun, v, faithful⟩
  | on c =>
    obtain ⟨a, b, m, hcall, kept⟩ := call_spec host v c
    have flag := (call_flag v allowed hcall).trans (flagAfter_eq faithful h)
    refine ⟨a, ⟨m, b, report s c⟩, by rw [step, hcall, ok_bind], ?_, kept.valid, flag⟩
    intro compact
    cases compact
    exact flag.trans ((report_compact s).trans faithful.symm)

theorem step_needs (i : Inv s) (allowed : Allowed s op) {a : Answer}
    (h : step host s op = .ok (a, t)) (faithful : Faithful t) : Unflagged s op := by
  obtain ⟨v, same⟩ := i
  unfold Unflagged
  split
  · rintro ⟨flag, hpos, hall⟩
    obtain ⟨⟨a', b, m⟩, hcall, h⟩ := ok_of_bind h
    have cleared : b.overflow = flagAfter s.buf .compact := call_flag v trivial hcall
    cases h
    have reported : s.reported = true := same ▸ flag
    have kept : b.overflow = report s .compact := faithful
    rw [cleared, report_compact, reported, flagAfter, decide_eq_true ⟨hpos, hall⟩] at kept
    simp at kept
  · trivial

/-- **The error flag.** Over a run of calls on one buffer, the flag is set in each
state exactly if a call was asked for a range that does not fit since the last
`ct_bytes_init`, `ct_bytes_from`, `ct_bytes_clear` or `ct_bytes_clear_error`, and
compacting never changes it: this holds of the runs in which no buffer that was
read to its end is compacted while the flag is set, and of no others. -/
theorem flag_runs (host : Endian) (mem : Mem) (ops : List Op)
    (allowed : Meets (step host) Allowed (start mem) ops) :
    Along (step host) Faithful CompactKeeps (start mem) ops ↔
      Meets (step host) Unflagged (start mem) ops := by
  apply along_iff_meets (I := Inv)
  · exact fun s i => i.faithful
  · exact fun s op => step_keeps
  · exact fun s op a t i allowed h _ => step_needs i allowed h
  · exact ⟨init_valid (Nat.zero_le _), rfl⟩
  · exact allowed

/-- A message that did not fit, and a buffer of one byte that is read and compacted. -/
def dropped : List Op :=
  [.from 0 1 0, .on (.put .u8 7), .on (.put .u8 8), .on .compact]

theorem flag_runs_dropped :
    Along (step .little) Faithful CompactKeeps (start [0]) dropped ↔
      Meets (step .little) Unflagged (start [0]) dropped := by
  apply flag_runs
  decide

/-- The second byte did not fit, and nothing tells it any more. -/
theorem compact_drops_report : ∃ answers t,
    exec (step .little) (start [0]) dropped = .ok (answers, t) ∧ t.reported = true ∧
      t.buf.overflow = false :=
  ⟨_, _, rfl, rfl, rfl⟩

end ErrorFlag

end Coter.Bytes
