import Coter.Lib.Refine
import Coter.Bytes.MsgBuf

/-!
# What a message buffer records

A buffer is a log of at most `cap` bytes: a piece is added as far as it fits, a
formatted one up to the place of its terminator. `ct_snprintf_s` answers with an
`int`, and for a failed format with the whole room.

* `snprintfS_spec`: what is written and what is returned;
* `counted_iff`: the formats whose return is the number of characters written;
* `records_iff`: the runs that record their pieces.
-/

namespace Coter.MsgBuf

open Lib Lib.Blocks

/-! ## The log -/

structure Log where
  cap : Nat
  held : List UInt8

/-- What is kept of a call's bytes when `room` bytes are free. -/
def piece (room : Nat) : Act → List UInt8
  | .write (some data) => data.take room
  | .fmt (some (.text chars _)) => chars.take (room - 1)
  | _ => []

namespace Log

def room (l : Log) : Nat := l.cap - l.held.length

def add (l : Log) (bytes : List UInt8) : Log := { l with held := l.held ++ bytes }

/-- What a call does to the log. -/
def step (l : Log) : Act → Answer × Log
  | .write data =>
    (.written (piece l.room (.write data)).length, l.add (piece l.room (.write data)))
  | .fmt format => (.done, l.add (piece l.room (.fmt format)))
  | .clear => (.done, { l with held := [] })

end Log

/-- The bytes of a buffer. -/
def contents (b : MsgBuf) : List UInt8 := b.buffer.take b.writePos

def log (b : MsgBuf) : Log := ⟨b.cap, b.contents⟩

structure Valid (b : MsgBuf) : Prop where
  le : b.writePos ≤ b.cap
  small : b.cap < 2 ^ 64
  inside : b.writePos ≤ b.buffer.length

theorem Valid.available {b : MsgBuf} (h : Valid b) : b.available = b.cap - b.writePos :=
  usizeSub_of_le h.le h.small

theorem Valid.contents_length {b : MsgBuf} (h : Valid b) : b.contents.length = b.writePos :=
  List.length_take_of_le h.inside

theorem Valid.room {b : MsgBuf} (h : Valid b) : b.log.room = b.available := by
  rw [h.available, ← h.contents_length]
  rfl

/-- A new buffer is empty. Its payload has the whole capacity unless the byte count of
the allocation wraps. -/
theorem create_spec {fresh : Option (Nat → UInt8)} {capacity : Nat} {b : MsgBuf}
    (h : create fresh capacity = .ok (some b)) :
    Valid b ∧ b.log = ⟨b.cap, []⟩ ∧ (capacity + 39 < 2 ^ 64 → b.cap ≤ b.buffer.length) := by
  unfold create at h
  generalize hc : (if capacity = 0 then 1024 else usize capacity) = c at h
  have small : c < 2 ^ 64 := by
    rw [← hc]
    split
    · decide
    · exact Nat.mod_lt _ (by decide)
  have whole (fits : capacity + 39 < 2 ^ 64) : sizeof - 1 + c < 2 ^ 64 := by
    have same : usize capacity = capacity := usize_of_lt (by omega)
    rw [same] at hc
    simp only [sizeof]
    split at hc <;> omega
  cases fresh with
  | none => simp at h
  | some fresh =>
    dsimp only at h
    split at h
    · cases h
    · obtain rfl := Option.some.inj (Except.ok.inj h)
      refine ⟨⟨Nat.zero_le _, small, Nat.zero_le _⟩, rfl, fun fits => ?_⟩
      have bytes := usize_of_lt (whole fits)
      rw [bytes, List.length_map, List.length_range]
      simp only [sizeof, header]
      omega

/-! ## Formatting -/

/-- What `ct_snprintf_s` returns into `n > 0` bytes, if that is defined. -/
def returned (n : Nat) : Formatted → Option Int
  | .text chars _ =>
    if i32 n ≤ chars.length then
      if i32 n = -2147483648 then none else some (i32 n - 1)
    else some chars.length
  | .error _ _ _ => some (i32 (n - 1 : Nat))

/-- A block at `buf`, and a terminator at the end of the `n` bytes there. -/
theorem terminated {m x : List UInt8} {buf n : Nat} (hn : 0 < n) (inside : buf + n ≤ m.length)
    (hx : x.length ≤ n) :
    ∃ m₁ m₂, store m buf x = .ok m₁ ∧ store m₁ (buf + (n - 1)) [0] = .ok m₂ ∧
      m₂.length = m.length ∧
      ∀ k, k ≤ n - 1 → k ≤ x.length → m₂.take (buf + k) = m.take buf ++ x.take k := by
  have first : buf + x.length ≤ m.length := by omega
  have length := write_length first
  have last : buf + (n - 1) + [(0 : UInt8)].length ≤ (Blocks.write m buf x).length := by
    rw [length, List.length_singleton]
    omega
  refine ⟨_, _, store_ok first, store_ok last, (write_length last).trans length, ?_⟩
  intro k before within
  have front : (m.take buf).length = buf := List.length_take_of_le (by omega)
  calc
    (Blocks.write (Blocks.write m buf x) (buf + (n - 1)) [0]).take (buf + k) =
        (Blocks.write m buf x).take (buf + k) := take_write_of_le (by omega) (by omega)
    _ = ((Blocks.write m buf x).take (buf + x.length)).take (buf + k) := by
      rw [List.take_take, Nat.min_eq_left (by omega)]
    _ = (m.take buf ++ x).take (buf + k) := by rw [take_write (by omega)]
    _ = m.take buf ++ x.take k := by rw [List.take_append, front, List.take_of_length_le (by omega),
      Nat.add_sub_cancel_left]

theorem snprintfS_eq {m m₁ m₂ : List UInt8} {buf n : Nat} {format : Formatted} {result : Int}
    (hn : 0 < n) (first : vsnprintf m buf n format = .ok (result, m₁))
    (last : store m₁ (buf + (n - 1)) [0] = .ok m₂) :
    snprintfS m buf n (some format) =
      if result < 0 then .ok (i32 (n - 1 : Nat), m₂)
      else if i32 n ≤ result then
        if i32 n = -2147483648 then .error .overflow else .ok (i32 n - 1, m₂)
      else .ok (result, m₂) := by
  rw [snprintfS]
  simp only [show n ≠ 0 by omega, ↓reduceIte, first, last, access, ok_bind]

/-- The characters written are the first ones of the text, whatever is returned. -/
theorem snprintfS_spec {m : List UInt8} {buf n : Nat} (hn : 0 < n) (inside : buf + n ≤ m.length)
    (format : Formatted) :
    ∃ m', m'.length = m.length ∧
      m'.take (buf + (piece n (.fmt (some format))).length) =
        m.take buf ++ piece n (.fmt (some format)) ∧
      snprintfS m buf n (some format) =
        match returned n format with
        | none => .error .overflow
        | some r => .ok (r, m') := by
  cases format with
  | text chars short =>
    have length : (chars.take (n - 1)).length ≤ n - 1 := List.length_take_le _ _
    obtain ⟨m₁, m₂, first, last, same, front⟩ := terminated hn inside
      (show (chars.take (n - 1) ++ [0]).length ≤ n by
        rw [List.length_append, List.length_singleton]
        omega)
    refine ⟨m₂, same, ?_, ?_⟩
    · have taken := front (chars.take (n - 1)).length length (by simp)
      rwa [List.take_left] at taken
    · have written : vsnprintf m buf n (.text chars short) = .ok (chars.length, m₁) := by
        rw [vsnprintf, first]
        rfl
      rw [snprintfS_eq hn written last, if_neg (by omega), returned]
      split
      · split <;> rfl
      · rfl
  | error result negative written =>
    obtain ⟨m₁, m₂, first, last, same, front⟩ := terminated hn inside
      (List.length_take_le n written)
    refine ⟨m₂, same, front 0 (Nat.zero_le _) (Nat.zero_le _), ?_⟩
    have wrote : vsnprintf m buf n (.error result negative written) = .ok (result, m₁) := by
      rw [vsnprintf, first]
      rfl
    rw [snprintfS_eq hn wrote last, if_pos negative, returned]

theorem length_of_store {m m' x : List UInt8} {o : Nat} (h : store m o x = .ok m') :
    m'.length = m.length := by
  unfold store at h
  split at h
  · next inside =>
    obtain rfl := Except.ok.inj h
    exact write_length inside
  · cases h

theorem length_of_vsnprintf {m m' : List UInt8} {buf n : Nat} {format : Formatted} {result : Int}
    (h : vsnprintf m buf n format = .ok (result, m')) : m'.length = m.length := by
  cases format with
  | text chars short =>
    obtain ⟨m₁, stored, same⟩ := ok_of_bind h
    obtain ⟨-, rfl⟩ := Prod.mk.inj (Except.ok.inj same)
    exact length_of_store stored
  | error code negative written =>
    obtain ⟨m₁, stored, same⟩ := ok_of_bind h
    obtain ⟨-, rfl⟩ := Prod.mk.inj (Except.ok.inj same)
    exact length_of_store stored

/-- The terminator is written at the end of the room. -/
theorem inside_of_snprintfS {m : List UInt8} {buf n : Nat} (hn : 0 < n) {format : Formatted}
    {r : Int × List UInt8} (h : snprintfS m buf n (some format) = .ok r) : buf + n ≤ m.length := by
  by_contra outside
  simp only [snprintfS, show n ≠ 0 by omega, ↓reduceIte] at h
  cases hv : vsnprintf m buf n format with
  | error e => simp [hv, access] at h
  | ok written =>
    obtain ⟨result, m₁⟩ := written
    have length := length_of_vsnprintf hv
    have fault := store_bounds (show m₁.length < buf + (n - 1) + [(0 : UInt8)].length by
      rw [length, List.length_singleton]
      omega)
    simp [hv, access, fault] at h

/-- The formats whose return counts the characters written. A failed one has written none
and has to find a room that leaves nothing to return; one that succeeds finds a room that
is an `int`, or an empty or short enough text. -/
def Counted (room : Nat) : Formatted → Prop
  | .text chars _ => room < 2 ^ 31 ∨
      i32 room ≠ -2147483648 ∧ (chars = [] ∨ (chars.length : Int) < i32 room)
  | .error _ _ _ => i32 (room - 1 : Nat) ≤ 0

instance (room : Nat) : (format : Formatted) → Decidable (Counted room format)
  | .text chars _ => inferInstanceAs (Decidable (room < 2 ^ 31 ∨
      i32 room ≠ -2147483648 ∧ (chars = [] ∨ (chars.length : Int) < i32 room)))
  | .error _ _ _ => inferInstanceAs (Decidable (i32 (room - 1 : Nat) ≤ 0))

theorem counted_iff {n : Nat} (hn : 0 < n) (format : Formatted) :
    Counted n format ↔
      ∃ r, returned n format = some r ∧ r.toNat = (piece n (.fmt (some format))).length := by
  cases format with
  | text chars short =>
    have empty : chars = [] ↔ chars.length = 0 := List.length_eq_zero_iff.symm
    simp only [Counted, returned, piece, List.length_take, empty]
    by_cases int : n < 2 ^ 31
    · have same : i32 n = n := i32_of_range (by omega) (by omega)
      simp only [int, true_or, same, true_iff]
      split
      · rw [if_neg (by omega)]
        exact ⟨_, rfl, by omega⟩
      · exact ⟨_, rfl, by omega⟩
    · simp only [int, false_or]
      generalize i32 n = v
      split
      · split
        · simp only [*, ne_eq, not_true_eq_false, false_and, reduceCtorEq, exists_false]
        · simp only [Option.some.injEq, exists_eq_left']
          omega
      · simp only [Option.some.injEq, exists_eq_left']
        omega
  | error result negative written => simp [Counted, returned, piece]

/-! ## The calls -/

/-- What a call adds to the buffer. -/
structure Adds (b : MsgBuf) (added : List UInt8) (t : MsgBuf) : Prop where
  cap : t.cap = b.cap
  pos : t.writePos = b.writePos + added.length
  length : t.buffer.length = b.buffer.length
  contents : t.contents = b.contents ++ added

theorem Adds.nothing (b : MsgBuf) : Adds b [] b := ⟨rfl, rfl, rfl, (List.append_nil _).symm⟩

/-- A call answers as the log does, and the size counts what it added. -/
structure Recorded (b : MsgBuf) (op : Act) (r : Answer) (t : MsgBuf) : Prop where
  step : b.log.step op = (r, t.log)
  size : op ≠ .clear → t.size = b.size + (piece b.available op).length

/-- A call that stays in the payload, and a format whose return counts what it wrote. -/
def Exact (b : MsgBuf) : Act → Prop
  | .write data => b.writePos + (piece b.available (.write data)).length ≤ b.buffer.length
  | .fmt (some format) => 0 < b.available →
      b.writePos + b.available ≤ b.buffer.length ∧ Counted b.available format
  | _ => True

instance (b : MsgBuf) : (op : Act) → Decidable (Exact b op)
  | .write data => inferInstanceAs (Decidable
      (b.writePos + (piece b.available (.write data)).length ≤ b.buffer.length))
  | .fmt (some format) => inferInstanceAs (Decidable (0 < b.available →
      b.writePos + b.available ≤ b.buffer.length ∧ Counted b.available format))
  | .fmt none | .clear => isTrue trivial

theorem piece_le (room : Nat) (op : Act) : (piece room op).length ≤ room := by
  unfold piece
  split
  · exact List.length_take_le _ _
  · exact Nat.le_trans (List.length_take_le _ _) (Nat.sub_le _ _)
  · exact Nat.zero_le _

theorem Adds.valid {b t : MsgBuf} {op : Act} (h : Adds b (piece b.available op) t)
    (valid : Valid b) (inside : b.writePos + (piece b.available op).length ≤ b.buffer.length) :
    Valid t := by
  have room := piece_le b.available op
  have free := valid.available
  have le := valid.le
  refine ⟨?_, ?_, ?_⟩
  · rw [h.cap, h.pos]
    omega
  · rw [h.cap]
    exact valid.small
  · rwa [h.pos, h.length]

theorem Adds.log {b t : MsgBuf} {added : List UInt8} (h : Adds b added t) :
    t.log = b.log.add added := by
  rw [MsgBuf.log, h.cap, h.contents]
  rfl

/-- The bytes copied are those that fit. -/
theorem write_eq (b : MsgBuf) (data : Option (List UInt8)) :
    b.write data =
      let added := piece b.available (.write data)
      if added.length = 0 then .ok (0, b)
      else store b.buffer b.writePos added >>= fun buffer =>
        .ok (added.length, { b with buffer, writePos := b.writePos + added.length }) := by
  dsimp only
  cases data with
  | none => rfl
  | some data =>
    have cut : (if data.length > b.available then b.available else data.length) =
        (data.take b.available).length := by
      rw [List.length_take]
      split <;> omega
    have copied : load data 0 (data.take b.available).length = .ok (data.take b.available) := by
      rw [load_ok (by rw [Nat.zero_add, List.length_take]; exact Nat.min_le_right _ _), Blocks.read,
        List.drop_zero, List.length_take, ← List.take_eq_take_min]
    simp only [MsgBuf.write, piece, cut]
    by_cases empty : data.length = 0
    · have none : (data.take b.available).length = 0 := by
        rw [List.length_take, empty, Nat.min_zero]
      simp only [empty, none, ↓reduceIte]
    · simp only [empty, ↓reduceIte, copied, ok_bind]
      rfl

theorem write_adds {b : MsgBuf} (valid : Valid b) {data : Option (List UInt8)}
    (inside : b.writePos + (piece b.available (.write data)).length ≤ b.buffer.length) :
    ∃ t, b.write data = .ok ((piece b.available (.write data)).length, t) ∧
      Adds b (piece b.available (.write data)) t := by
  rw [write_eq]
  dsimp only
  generalize piece b.available (.write data) = added at inside ⊢
  by_cases empty : added.length = 0
  · obtain rfl := List.length_eq_zero_iff.1 empty
    exact ⟨b, rfl, Adds.nothing b⟩
  · simp only [empty, ↓reduceIte, store_ok inside, ok_bind]
    exact ⟨_, rfl, rfl, rfl, write_length inside, take_write valid.inside⟩

theorem inside_of_write {b : MsgBuf} (valid : Valid b) {data : Option (List UInt8)}
    {r : Nat × MsgBuf} (h : b.write data = .ok r) :
    b.writePos + (piece b.available (.write data)).length ≤ b.buffer.length := by
  rw [write_eq] at h
  dsimp only at h
  generalize piece b.available (.write data) = added at h ⊢
  by_cases empty : added.length = 0
  · rw [empty]
    exact valid.inside
  · simp only [empty, ↓reduceIte] at h
    by_contra outside
    rw [store_bounds (Nat.not_le.1 outside)] at h
    cases h

theorem fmt_null (b : MsgBuf) : b.fmt none = .ok b := by
  unfold fmt
  split <;> rfl

theorem fmt_full {b : MsgBuf} (full : ¬ 0 < b.available) (format : Option Formatted) :
    b.fmt format = .ok b := if_neg full

/-- The position moves by what `ct_snprintf_s` returns, if that is positive. -/
theorem fmt_inside {b : MsgBuf} (free : 0 < b.available)
    (inside : b.writePos + b.available ≤ b.buffer.length) (format : Formatted) :
    ∃ m, m.length = b.buffer.length ∧
      m.take (b.writePos + (piece b.available (.fmt (some format))).length) =
        b.contents ++ piece b.available (.fmt (some format)) ∧
      b.fmt (some format) =
        match returned b.available format with
        | none => .error .overflow
        | some r => .ok { b with buffer := m, writePos := b.writePos + r.toNat } := by
  obtain ⟨m, length, front, run⟩ := snprintfS_spec free inside format
  refine ⟨m, length, front, ?_⟩
  rw [fmt, if_pos free, run]
  cases returned b.available format with
  | none => rfl
  | some r =>
    rw [ok_bind]
    dsimp only
    split
    · rfl
    · next back =>
      have stays : r.toNat = 0 := by omega
      rw [stays, Nat.add_zero]

theorem fmt_adds {b : MsgBuf} (free : 0 < b.available)
    (inside : b.writePos + b.available ≤ b.buffer.length) {format : Formatted}
    (counted : Counted b.available format) :
    ∃ t, b.fmt (some format) = .ok t ∧ Adds b (piece b.available (.fmt (some format))) t := by
  obtain ⟨m, length, front, run⟩ := fmt_inside free inside format
  obtain ⟨r, answer, moves⟩ := (counted_iff free format).1 counted
  rw [run, answer]
  refine ⟨_, rfl, rfl, ?_, length, ?_⟩
  · rw [moves]
  · rw [MsgBuf.contents, moves]
    exact front

theorem exact_of_fmt {b t : MsgBuf} (free : 0 < b.available) {format : Formatted}
    (h : b.fmt (some format) = .ok t)
    (size : t.size = b.size + (piece b.available (.fmt (some format))).length) :
    b.writePos + b.available ≤ b.buffer.length ∧ Counted b.available format := by
  have inside : b.writePos + b.available ≤ b.buffer.length := by
    rw [fmt, if_pos free] at h
    obtain ⟨r, run, -⟩ := ok_of_bind h
    exact inside_of_snprintfS free run
  refine ⟨inside, (counted_iff free format).2 ?_⟩
  obtain ⟨m, -, -, run⟩ := fmt_inside free inside format
  rw [run] at h
  cases answer : returned b.available format with
  | none => simp [answer] at h
  | some r =>
    simp only [answer, Except.ok.injEq] at h
    subst h
    exact ⟨r, rfl, Nat.add_left_cancel size⟩

/-! ## Runs -/

theorem Adds.recorded_write {b t : MsgBuf} (valid : Valid b) {data : Option (List UInt8)}
    (h : Adds b (piece b.available (.write data)) t) :
    Recorded b (.write data) (.written (piece b.available (.write data)).length) t := by
  refine ⟨?_, fun _ => h.pos⟩
  rw [Log.step, valid.room, h.log]

theorem Adds.recorded_fmt {b t : MsgBuf} (valid : Valid b) {format : Option Formatted}
    (h : Adds b (piece b.available (.fmt format)) t) : Recorded b (.fmt format) .done t := by
  refine ⟨?_, fun _ => h.pos⟩
  rw [Log.step, valid.room, h.log]

/-- Nothing is written of a null format, and nothing without room. -/
theorem piece_fmt_none {room : Nat} {format : Option Formatted}
    (h : format = none ∨ ¬ 0 < room) : piece room (.fmt format) = [] := by
  rcases h with rfl | full
  · rfl
  · have none := piece_le room (.fmt format)
    exact List.length_eq_zero_iff.1 (by omega)

theorem exact_step {b : MsgBuf} (valid : Valid b) {op : Act} (h : Exact b op) :
    ∃ r t, act b op = .ok (r, t) ∧ Recorded b op r t ∧ Valid t := by
  cases op with
  | write data =>
    obtain ⟨t, run, adds⟩ := write_adds valid h
    exact ⟨_, t, by simp [act, run, access], adds.recorded_write valid, adds.valid valid h⟩
  | fmt format =>
    have idle (none : format = none ∨ ¬ 0 < b.available) (run : b.fmt format = .ok b) :
        ∃ r t, act b (.fmt format) = .ok (r, t) ∧ Recorded b (.fmt format) r t ∧ Valid t := by
      have adds : Adds b (piece b.available (.fmt format)) b := by
        rw [piece_fmt_none none]
        exact Adds.nothing b
      exact ⟨.done, b, by simp [act, run], adds.recorded_fmt valid, valid⟩
    cases format with
    | none => exact idle (Or.inl rfl) (fmt_null b)
    | some format =>
      by_cases free : 0 < b.available
      · obtain ⟨inside, counted⟩ := h free
        obtain ⟨t, run, adds⟩ := fmt_adds free inside counted
        have room := piece_le b.available (.fmt (some format))
        exact ⟨.done, t, by simp [act, run], adds.recorded_fmt valid,
          adds.valid valid (by omega)⟩
      · exact idle (Or.inr free) (fmt_full free _)
  | clear =>
    exact ⟨.done, b.clear, rfl, ⟨rfl, fun h => absurd rfl h⟩, Nat.zero_le _, valid.small,
      Nat.zero_le _⟩

theorem exact_of_recorded {b t : MsgBuf} (valid : Valid b) {op : Act} {r : Answer}
    (run : act b op = .ok (r, t)) (h : Recorded b op r t) : Exact b op := by
  cases op with
  | write data =>
    obtain ⟨x, wrote, -⟩ := ok_of_bind run
    cases hw : b.write data with
    | error e => simp [hw, access] at wrote
    | ok y => exact inside_of_write valid hw
  | fmt format =>
    obtain ⟨u, wrote, same⟩ := ok_of_bind run
    obtain ⟨-, rfl⟩ := Prod.mk.inj (Except.ok.inj same)
    cases format with
    | none => trivial
    | some format => exact fun free => exact_of_fmt free wrote (h.size (by simp))
  | clear => trivial

/-- **What a buffer records.** In a run of a new buffer the size stays in the capacity, and
each call answers as the log does and moves the size by what it stored, exactly if every
piece lies in the payload and every format is counted by its return. Then the buffer holds
at the end what the log holds. -/
theorem records_iff {fresh : Option (Nat → UInt8)} {capacity : Nat} {b : MsgBuf}
    (hb : create fresh capacity = .ok (some b)) (acts : List Act) :
    (Machine.Along act (fun b => b.size ≤ b.cap) Recorded b acts ↔
      Machine.Meets act Exact b acts) ∧
    (Machine.Meets act Exact b acts →
      ∃ t, Machine.exec act b acts = .ok ((Refine.specRun Log.step ⟨b.cap, []⟩ acts).1, t) ∧
        t.log = (Refine.specRun Log.step ⟨b.cap, []⟩ acts).2) := by
  obtain ⟨valid, empty, -⟩ := create_spec hb
  have decided : Machine.Along act (fun b => b.size ≤ b.cap) Recorded b acts ↔
      Machine.Meets act Exact b acts := by
    refine Machine.along_iff_meets (I := Valid) (C := fun _ _ => True) ?_ ?_ ?_ valid
      (Machine.meets_of_forall b fun _ _ => trivial)
    · intro b h
      exact h.le
    · intro b op h _ exact
      exact exact_step h exact
    · intro b op r t h _ run recorded _
      exact exact_of_recorded h run recorded
  refine ⟨decided, fun exact => ?_⟩
  rw [← empty]
  exact Refine.refines_of_along (fun _ _ _ _ h => h.step) (decided.2 exact)

/-- A new buffer of four bytes; its allocation ends with the padding of the header. -/
def four : MsgBuf := { buffer := List.replicate 11 0, writePos := 0, cap := 4 }

theorem records_iff_four :
    ∃ t, Machine.exec act four
        [.write (some [7, 8]), .fmt (some (.text [65, 66, 67] (by decide)))] =
        .ok ([.written 2, .done], t) ∧ t.log = ⟨4, [7, 8, 65]⟩ :=
  (records_iff (show create (some fun _ => 0) 4 = .ok (some four) from rfl) _).2 (by decide)

/-- An encoding error in an empty buffer of four bytes moves its size to three. -/
theorem fmt_error_counts :
    act four (.fmt (some (.error (-1) (by decide) []))) = .ok (.done, { four with writePos := 3 }) ∧
    ¬ Machine.Along act (fun b => b.size ≤ b.cap) Recorded four
      [.fmt (some (.error (-1) (by decide) []))] := by
  have run : act four (.fmt (some (.error (-1) (by decide) []))) =
      .ok (.done, { four with writePos := 3 }) := rfl
  refine ⟨run, ?_⟩
  rintro ⟨_, r, t, step, recorded, -⟩
  obtain ⟨-, rfl⟩ := Prod.mk.inj (Except.ok.inj (run.symm.trans step))
  have size : 3 = 0 + 0 := recorded.size (by simp)
  cases size

end Coter.MsgBuf
