import Coter.Encoding.Base64
import Coter.Lib.Machine

/-!
# The base 64 encoder streams

* `rfc4648`: the encoding of a byte string;
* `Encoder.updateLoop_spec`, `Encoder.updateLoop_short`: what the loop does with enough
  room, and where it stops without;
* `streams_encode`: over every split of the input, the chunks and the end of the
  stream give the encoding of the whole, as the one call does;
* `short_runs`: over a run, an update without room leaves the encoder alone if it
  does not get to take any byte.
-/

namespace Coter.Base64

/-- Table 1 of RFC 4648. -/
def alphabet : List Char :=
  ['A', 'B', 'C', 'D', 'E', 'F', 'G', 'H', 'I', 'J', 'K', 'L', 'M', 'N', 'O', 'P',
    'Q', 'R', 'S', 'T', 'U', 'V', 'W', 'X', 'Y', 'Z', 'a', 'b', 'c', 'd', 'e', 'f',
    'g', 'h', 'i', 'j', 'k', 'l', 'm', 'n', 'o', 'p', 'q', 'r', 's', 't', 'u', 'v',
    'w', 'x', 'y', 'z', '0', '1', '2', '3', '4', '5', '6', '7', '8', '9', '+', '/']

def digit (n : Nat) : UInt8 := UInt8.ofNat (alphabet.getD n '=').toNat

def rfc4648 : List UInt8 → List UInt8 := Lib.Base64.encode digit padding

theorem rfc4648_append {xs : List UInt8} (ys : List UInt8) (h : 3 ∣ xs.length) :
    rfc4648 (xs ++ ys) = rfc4648 xs ++ rfc4648 ys :=
  Lib.Base64.encode_append digit padding xs ys h

theorem encodeSingle_eq {c : Nat} (h : c < 64) : encodeSingle c = digit c := by
  have all : ∀ c : Fin 64, encodeSingle c = digit c := by decide
  exact all ⟨c, h⟩

/-! ## Six bits of eight -/

open Lib.Base64 (group sextet)

variable (a b c : UInt8)

theorem sextet_first : a.toNat >>> 2 = sextet (group a b c) 0 := by
  have ha := a.toNat_lt
  have hb := b.toNat_lt
  have hc := c.toNat_lt
  simp only [sextet, group, Nat.shiftRight_eq_div_pow, Fin.val_zero, Nat.sub_zero]
  omega

theorem sextet_second : (a.toNat &&& 3) <<< 4 ||| b.toNat >>> 4 = sextet (group a b c) 1 := by
  have ha := a.toNat_lt
  have hb := b.toNat_lt
  have hc := c.toNat_lt
  have low : b.toNat >>> 4 < 2 ^ 4 := by
    rw [Nat.shiftRight_eq_div_pow]
    omega
  rw [← Nat.shiftLeft_add_eq_or_of_lt low, Nat.and_two_pow_sub_one_eq_mod _ 2]
  simp only [sextet, group, Nat.shiftRight_eq_div_pow, Nat.shiftLeft_eq, Fin.val_one]
  omega

theorem sextet_third : (b.toNat &&& 15) <<< 2 ||| c.toNat >>> 6 = sextet (group a b c) 2 := by
  have ha := a.toNat_lt
  have hb := b.toNat_lt
  have hc := c.toNat_lt
  have low : c.toNat >>> 6 < 2 ^ 2 := by
    rw [Nat.shiftRight_eq_div_pow]
    omega
  rw [← Nat.shiftLeft_add_eq_or_of_lt low, Nat.and_two_pow_sub_one_eq_mod _ 4]
  simp only [sextet, group, Nat.shiftRight_eq_div_pow, Nat.shiftLeft_eq, Fin.val_two]
  omega

theorem sextet_fourth : c.toNat &&& 63 = sextet (group a b c) 3 := by
  rw [Nat.and_two_pow_sub_one_eq_mod _ 6]
  simp only [sextet, group]
  have three : ((3 : Fin 4) : Nat) = 3 := rfl
  rw [three]
  omega

theorem sextet_lt (n : Nat) (i : Fin 4) : sextet n i < 64 := Nat.mod_lt _ (by decide)

namespace Encoder

/-- The bytes that wait for others. -/
def pending (e : Encoder) : List UInt8 := [e.b0, e.b1, e.b2].take e.count

variable {e : Encoder}

theorem pending_length (h : e.count ≤ 3) : e.pending.length = e.count := by
  rw [pending, List.length_take]
  exact Nat.min_eq_left h

theorem stash_spec (h : e.count < 3) (c : UInt8) :
    ∃ e', e.stash c = .ok e' ∧ e'.count = e.count + 1 ∧ e'.pending = e.pending ++ [c] := by
  obtain ⟨b0, b1, b2, count⟩ := e
  match count, h with
  | 0, _ => exact ⟨_, rfl, rfl, rfl⟩
  | 1, _ => exact ⟨_, rfl, rfl, rfl⟩
  | 2, _ => exact ⟨_, rfl, rfl, rfl⟩

/-- The four characters encode the three bytes. -/
theorem quad_eq (h : e.count = 3) : e.quad = rfc4648 e.pending := by
  rw [pending, h]
  simp only [quad, rfc4648, Lib.Base64.encode, List.take_succ_cons, List.take_zero,
    sextet_first e.b0 e.b1 e.b2, sextet_second e.b0 e.b1 e.b2, sextet_third e.b0 e.b1 e.b2,
    sextet_fourth e.b0 e.b1 e.b2, encodeSingle_eq (sextet_lt _ _)]

@[simp] theorem quad_length : e.quad.length = 4 := rfl

@[simp] theorem pending_zero : pending { e with count := 0 } = [] := rfl

/-! ## The loop -/

variable {outMax written : Nat} {out inp : List UInt8}

theorem store_quad (e : Encoder) (out : List UInt8) (written : Nat) (hw : written + 4 ≤ out.length) :
    ∃ out', store out written e.quad = .ok out' ∧ out'.length = out.length ∧
      out'.take (written + 4) = out.take written ++ e.quad := by
  have room : written + e.quad.length ≤ out.length := by rwa [quad_length]
  refine ⟨Lib.Blocks.write out written e.quad, store_ok room, Lib.Blocks.write_length room, ?_⟩
  have front : (out.take written).length = written := by
    rw [List.length_take]
    omega
  unfold Lib.Blocks.write
  rw [List.append_assoc, List.take_append, front, Nat.add_sub_cancel_left,
    List.take_of_length_le (by omega)]
  rfl

/-- What the loop leaves when there was room for all quads: the characters of the whole
groups, and fewer than three bytes pending. -/
structure Flushed (e : Encoder) (inp out : List UInt8) (written : Nat)
    (r : Nat × List UInt8 × Encoder) : Prop where
  returned : r.1 = written + 4 * ((e.count + inp.length) / 3)
  length : r.2.1.length = out.length
  count : r.2.2.count < 3
  sound : ∃ whole, e.pending ++ inp = whole ++ r.2.2.pending ∧ 3 ∣ whole.length ∧
    r.2.1.take r.1 = out.take written ++ rfc4648 whole

theorem updateLoop_spec (hc : e.count < 3)
    (room : written + 4 * ((e.count + inp.length) / 3) ≤ outMax) (hout : outMax ≤ out.length)
    (small : outMax < 2 ^ 64) :
    ∃ r, updateLoop outMax e out written inp = .ok r ∧ Flushed e inp out written r := by
  induction inp generalizing e out written with
  | nil =>
    have none : (e.count + 0) / 3 = 0 := by omega
    refine ⟨(written, out, e), rfl, ?_, rfl, hc, [], List.append_nil _, ⟨0, rfl⟩, ?_⟩
    · rw [List.length_nil, none]
      rfl
    · rw [rfc4648, Lib.Base64.encode, List.append_nil]
  | cons c cs ih =>
    obtain ⟨e₁, hstash, hcount, hpending⟩ := stash_spec hc c
    rw [List.length_cons] at room
    by_cases full : e₁.count = 3
    · have two : e.count = 2 := by omega
      have quads : (e.count + (cs.length + 1)) / 3 = (0 + cs.length) / 3 + 1 := by omega
      rw [quads] at room
      obtain ⟨out₁, hstore, hlength, hfront⟩ := store_quad e₁ out written
        (by omega)
      have rest : written + 4 + 4 * ((0 + cs.length) / 3) ≤ outMax := by omega
      obtain ⟨r, hr, flushed⟩ := ih (e := { e₁ with count := 0 }) (Nat.succ_pos 2) rest
        (hlength.symm ▸ hout)
      obtain ⟨whole, hsplit, hwhole, hcoded⟩ := flushed.sound
      refine ⟨r, ?_, ?_, flushed.length.trans hlength, flushed.count, e₁.pending ++ whole, ?_, ?_, ?_⟩
      · rw [updateLoop, hstash, ok_bind, if_pos full, usize_of_lt (by omega), if_neg (by omega),
          hstore, ok_bind, hr]
      · have returned : r.1 = written + 4 + 4 * ((0 + cs.length) / 3) := flushed.returned
        rw [returned, List.length_cons, quads]
        omega
      · rw [pending_zero, List.nil_append] at hsplit
        rw [List.append_assoc, ← hsplit, hpending, List.append_assoc]
        rfl
      · rw [List.length_append, pending_length (by omega), full]
        omega
      · have group : 3 ∣ e₁.pending.length := by rw [pending_length (by omega), full]
        rw [hcoded, hfront, quad_eq full, List.append_assoc, rfc4648_append whole group]
    · have quads : (e.count + (cs.length + 1)) / 3 = (e₁.count + cs.length) / 3 := by omega
      rw [quads] at room
      obtain ⟨r, hr, flushed⟩ := ih (e := e₁) (by omega) room hout
      obtain ⟨whole, hsplit, hwhole, hcoded⟩ := flushed.sound
      refine ⟨r, ?_, ?_, flushed.length, flushed.count, whole, ?_, hwhole, hcoded⟩
      · rw [updateLoop, hstash, ok_bind, if_neg full, hr]
      · rw [flushed.returned, List.length_cons, quads]
      · rw [← hsplit, hpending, List.append_assoc]
        rfl

/-- Without room for all quads the loop stops in front of the first one that does not
fit, with its three bytes taken. -/
theorem updateLoop_short (inp : List UInt8) (hc : e.count < 3) (hw : written ≤ outMax)
    (short : outMax < written + 4 * ((e.count + inp.length) / 3)) (hout : outMax ≤ out.length)
    (small : out.length < 2 ^ 63) :
    ∃ out' e', updateLoop outMax e out written inp = .ok (0, out', e') ∧ e'.count = 3 ∧
      e'.pending = ((e.pending ++ inp).drop (3 * ((outMax - written) / 4))).take 3 := by
  induction inp generalizing e out written with
  | nil =>
    have none : (e.count + 0) / 3 = 0 := by omega
    simp only [List.length_nil, none] at short
    omega
  | cons c cs ih =>
    obtain ⟨e₁, hstash, hcount, hpending⟩ := stash_spec hc c
    rw [List.length_cons] at short
    have three := pending_length (e := e₁) (by omega)
    have joined : e.pending ++ c :: cs = e₁.pending ++ cs := by
      rw [hpending, List.append_assoc]
      rfl
    by_cases full : e₁.count = 3
    · have quads : (e.count + (cs.length + 1)) / 3 = (0 + cs.length) / 3 + 1 := by omega
      rw [quads] at short
      by_cases stop : outMax < written + 4
      · have first : (outMax - written) / 4 = 0 := by omega
        refine ⟨out, e₁, ?_, full, ?_⟩
        · rw [updateLoop, hstash, ok_bind, if_pos full, usize_of_lt (by omega), if_pos stop]
        · rw [first, joined, Nat.mul_zero, List.drop_zero, List.take_append_of_le_length (by omega),
            List.take_of_length_le (by omega)]
      · obtain ⟨out₁, hstore, hlength, -⟩ := store_quad e₁ out written
          (by omega)
        have rest : outMax < written + 4 + 4 * ((0 + cs.length) / 3) := by omega
        obtain ⟨out', e', hr, hthree, hlast⟩ := ih (e := { e₁ with count := 0 }) (Nat.succ_pos 2)
          (by omega) rest (hlength.symm ▸ hout) (hlength.symm ▸ small)
        refine ⟨out', e', ?_, hthree, ?_⟩
        · rw [updateLoop, hstash, ok_bind, if_pos full, usize_of_lt (by omega), if_neg stop,
            hstore, ok_bind, hr]
        · have next : 3 * ((outMax - written) / 4) =
              e₁.pending.length + 3 * ((outMax - (written + 4)) / 4) := by omega
          rw [hlast, pending_zero, List.nil_append, joined, next, List.drop_length_add_append]
    · have quads : (e.count + (cs.length + 1)) / 3 = (e₁.count + cs.length) / 3 := by omega
      rw [quads] at short
      obtain ⟨out', e', hr, hthree, hlast⟩ := ih (e := e₁) (by omega) hw short hout small
      refine ⟨out', e', ?_, hthree, ?_⟩
      · rw [updateLoop, hstash, ok_bind, if_neg full, hr]
      · rw [hlast, joined]

/-! ## The end of the stream -/

theorem finish_spec (e : Encoder) (chars : List UInt8) (room : chars.length + 1 ≤ out.length) :
    ∃ out', finish e out chars = .ok (chars.length, out', e) ∧ out'.take chars.length = chars := by
  have fits : 0 + (chars ++ [0]).length ≤ out.length := by
    simpa using room
  refine ⟨Lib.Blocks.write out 0 (chars ++ [0]), ?_, ?_⟩
  · rw [finish, store_ok fits, ok_bind]
  · rw [Lib.Blocks.write_start, List.append_assoc, List.take_left]

/-- The last characters encode the pending bytes. -/
theorem final_spec (out : List UInt8) (outMax : Nat) (hc : e.count < 3)
    (room : (if e.count = 0 then 1 else 5) ≤ outMax) (hout : outMax ≤ out.length) :
    ∃ out' e', e.final out outMax = .ok ((rfc4648 e.pending).length, out', e') ∧
      out'.take (rfc4648 e.pending).length = rfc4648 e.pending := by
  obtain ⟨b0, b1, b2, count⟩ := e
  match count, hc with
  | 0, _ =>
    have enough : ¬ outMax < 1 := Nat.not_lt.2 room
    have coded : rfc4648 (pending ⟨b0, b1, b2, 0⟩) = [] := rfl
    rw [coded]
    obtain ⟨out', hr, hfront⟩ := finish_spec ⟨b0, b1, b2, 0⟩ []
      (Nat.le_trans (Nat.le_of_not_lt enough) hout)
    exact ⟨out', _, by simpa [final, enough] using hr, hfront⟩
  | 1, _ =>
    have enough : ¬ outMax < 5 := Nat.not_lt.2 room
    have second := sextet_second b0 0 0
    simp only [UInt8.toNat_zero, Nat.zero_shiftRight, Nat.or_zero] at second
    have coded : rfc4648 (pending ⟨b0, b1, b2, 1⟩) =
        [encodeSingle (b0.toNat >>> 2), encodeSingle ((b0.toNat &&& 3) <<< 4), padding, padding] := by
      rw [second, sextet_first b0 0 0, encodeSingle_eq (sextet_lt _ _),
        encodeSingle_eq (sextet_lt _ _)]
      rfl
    rw [coded]
    obtain ⟨out', hr, hfront⟩ := finish_spec ⟨b0, b1, b2, 0⟩
      [encodeSingle (b0.toNat >>> 2), encodeSingle ((b0.toNat &&& 3) <<< 4), padding, padding]
      (Nat.le_trans (Nat.le_of_not_lt enough) hout)
    exact ⟨out', _, by simpa [final, enough] using hr, hfront⟩
  | 2, _ =>
    have enough : ¬ outMax < 5 := Nat.not_lt.2 room
    have third := sextet_third b0 b1 0
    simp only [UInt8.toNat_zero, Nat.zero_shiftRight, Nat.or_zero] at third
    have coded : rfc4648 (pending ⟨b0, b1, b2, 2⟩) =
        [encodeSingle (b0.toNat >>> 2), encodeSingle ((b0.toNat &&& 3) <<< 4 ||| b1.toNat >>> 4),
          encodeSingle ((b1.toNat &&& 15) <<< 2), padding] := by
      rw [third, sextet_first b0 b1 0, sextet_second b0 b1 0, encodeSingle_eq (sextet_lt _ _),
        encodeSingle_eq (sextet_lt _ _), encodeSingle_eq (sextet_lt _ _)]
      rfl
    rw [coded]
    obtain ⟨out', hr, hfront⟩ := finish_spec ⟨b0, b1, b2, 0⟩
      [encodeSingle (b0.toNat >>> 2), encodeSingle ((b0.toNat &&& 3) <<< 4 ||| b1.toNat >>> 4),
        encodeSingle ((b1.toNat &&& 15) <<< 2), padding]
      (Nat.le_trans (Nat.le_of_not_lt enough) hout)
    exact ⟨out', _, by simpa [final, enough] using hr, hfront⟩

theorem update_eq (hc : e.count < 3) :
    e.update (some inp) out outMax = updateLoop outMax e out 0 inp := by
  rw [update, if_neg (Nat.ne_of_lt hc)]

/-- The whole groups are written and the others pend, whatever `in` points to. -/
theorem update_spec (hc : e.count < 3) (inp : Option (List UInt8))
    (room : 4 * ((e.count + (inp.getD []).length) / 3) ≤ outMax) (hout : outMax ≤ out.length)
    (small : outMax < 2 ^ 64) :
    ∃ r, e.update inp out outMax = .ok r ∧ Flushed e (inp.getD []) out 0 r := by
  cases inp with
  | none =>
    have none : (e.count + 0) / 3 = 0 := by omega
    refine ⟨(0, out, e), rfl, ?_, rfl, hc, [], List.append_nil _, ⟨0, rfl⟩, rfl⟩
    rw [Option.getD_none, List.length_nil, none]
  | some inp =>
    rw [update_eq hc]
    exact updateLoop_spec hc (by simpa using room) hout small

end Encoder

/-! ## Streams -/

/-- A call of `ct_base64_encoder_update`. -/
structure Chunk where
  inp : Option (List UInt8)
  out : List UInt8
  outMax : Nat

def Chunk.bytes (c : Chunk) : List UInt8 := c.inp.getD []

/-- The characters that the calls return, and the encoder behind them. -/
def stream : Encoder → List Chunk → Except Fault (List UInt8 × Encoder)
  | e, [] => .ok ([], e)
  | e, c :: cs => do
    let (written, out, e) ← e.update c.inp c.out c.outMax
    let (rest, e) ← stream e cs
    .ok (out.take written ++ rest, e)

/-- Each call has room for the quads that it completes, behind `k` pending bytes. -/
def Roomy : Nat → List Chunk → Prop
  | _, [] => True
  | k, c :: cs => 4 * ((k + c.bytes.length) / 3) ≤ c.outMax ∧ c.outMax ≤ c.out.length ∧
      c.out.length < 2 ^ 63 ∧ Roomy ((k + c.bytes.length) % 3) cs

instance decidableRoomy : ∀ (k : Nat) (cs : List Chunk), Decidable (Roomy k cs)
  | _, [] => inferInstanceAs (Decidable True)
  | k, c :: cs =>
    have := decidableRoomy ((k + c.bytes.length) % 3) cs
    inferInstanceAs (Decidable (_ ∧ _ ∧ _ ∧ _))

theorem stream_spec {e : Encoder} {chunks : List Chunk} (hc : e.count < 3)
    (roomy : Roomy e.count chunks) :
    ∃ out e', stream e chunks = .ok (out, e') ∧ e'.count < 3 ∧
      ∃ whole, e.pending ++ (chunks.map Chunk.bytes).flatten = whole ++ e'.pending ∧
        3 ∣ whole.length ∧ out = rfc4648 whole := by
  induction chunks generalizing e with
  | nil => exact ⟨[], e, rfl, hc, [], List.append_nil _, ⟨0, rfl⟩, rfl⟩
  | cons c cs ih =>
    obtain ⟨room, hout, small, rest⟩ := roomy
    obtain ⟨⟨written, out, e₁⟩, hr, flushed⟩ := Encoder.update_spec hc c.inp room hout (by omega)
    obtain ⟨whole, hsplit, hwhole, hcoded⟩ := flushed.sound
    have hcount : e₁.count < 3 := flushed.count
    have hsplit : e.pending ++ c.bytes = whole ++ e₁.pending := hsplit
    have hcoded : out.take written = rfc4648 whole := hcoded
    have carry : e₁.count = (e.count + c.bytes.length) % 3 := by
      have lengths := congrArg List.length hsplit
      rw [List.length_append, List.length_append, Encoder.pending_length (by omega),
        Encoder.pending_length (by omega)] at lengths
      omega
    obtain ⟨more, e', hs, hlast, whole', hsplit', hwhole', hcoded'⟩ := ih hcount (carry ▸ rest)
    refine ⟨out.take written ++ more, e', ?_, hlast, whole ++ whole', ?_, ?_, ?_⟩
    · simp only [stream, hr, ok_bind, hs]
    · rw [List.map_cons, List.flatten_cons, ← List.append_assoc, hsplit, List.append_assoc, hsplit',
        List.append_assoc]
    · rw [List.length_append]
      omega
    · rw [hcoded, hcoded', rfc4648_append whole' hwhole]

theorem rfc4648_length (data : List UInt8) : (rfc4648 data).length = encodeLength data.length := by
  rw [rfc4648, Lib.Base64.encode_length]
  unfold encodeLength
  split <;> omega

/-- `ct_base64_encode` with enough room. -/
theorem encode_spec (data : List UInt8) {buf : List UInt8} {bufMax : Nat}
    (room : encodeLength data.length + 1 ≤ bufMax) (hbuf : bufMax ≤ buf.length)
    (small : bufMax < 2 ^ 64) :
    ∃ buf', encode (some data) data.length buf bufMax = .ok ((rfc4648 data).length, buf') ∧
      buf'.take (rfc4648 data).length = rfc4648 data := by
  have hlength : encodeLength data.length = 4 * ((data.length + 2) / 3) := by
    unfold encodeLength
    split <;> omega
  have hquads : data.length / 3 + (if data.length % 3 ≠ 0 then 1 else 0) = (data.length + 2) / 3 := by
    split <;> omega
  have cleared : emptied buf bufMax = .ok (Lib.Blocks.write buf 0 [0]) := by
    rw [emptied, if_pos (by omega), store_ok (by simp only [List.length_singleton]; omega)]
  have clearedLength : (Lib.Blocks.write buf 0 [0]).length = buf.length :=
    Lib.Blocks.write_length (by simp only [List.length_singleton]; omega)
  have whole : load data 0 data.length = .ok data := by
    rw [load_ok (by omega), Lib.Blocks.read, List.drop_zero, List.take_length]
  have none : (0 + data.length) / 3 = data.length / 3 := by rw [Nat.zero_add]
  obtain ⟨⟨written, out, e⟩, hr, flushed⟩ := @Encoder.update_spec Encoder.init
    (bufMax - 1) (Lib.Blocks.write buf 0 [0]) (Nat.succ_pos 2) (some data)
    (by simp only [Option.getD_some, Encoder.init, none]; omega) (by omega) (by omega)
  have hcount : e.count < 3 := flushed.count
  have hout : out.length = buf.length := flushed.length.trans clearedLength
  have hwritten : written = 4 * (data.length / 3) := by
    have returned := flushed.returned
    simp only [Option.getD_some, Encoder.init, Nat.zero_add] at returned
    exact returned
  obtain ⟨groups, hsplit, hgroups, hcoded⟩ := flushed.sound
  have hsplit : data = groups ++ e.pending := hsplit
  have hcoded : out.take written = rfc4648 groups := hcoded
  have lengths := congrArg List.length hsplit
  rw [List.length_append, Encoder.pending_length (by omega)] at lengths
  obtain ⟨tail, e', hfinal, htail⟩ := Encoder.final_spec (out.drop written)
    (bufMax - written) hcount (by split <;> omega) (by rw [List.length_drop]; omega)
  have coded : rfc4648 data = rfc4648 groups ++ rfc4648 e.pending := by
    rw [hsplit, rfc4648_append e.pending hgroups]
  have front : (rfc4648 groups).length = written := by
    rw [← hcoded, List.length_take]
    omega
  have total : (rfc4648 data).length = written + (rfc4648 e.pending).length := by
    rw [coded, List.length_append, front]
  have bound := rfc4648_length data
  refine ⟨out.take written ++ tail, ?_, ?_⟩
  · have loaded : (some data).mapM (fun bytes => load bytes 0 data.length) =
        .ok (some data) := by
      show (some <$> load data 0 data.length : Except Fault _) = _
      rw [whole]
      rfl
    unfold encode
    rw [cleared, ok_bind, hquads, usize_of_lt (by omega : (data.length + 2) / 3 < 2 ^ 64)]
    dsimp only
    rw [usize_of_lt (by omega : (data.length + 2) / 3 * 4 < 2 ^ 64),
      usize_of_lt (by omega : (data.length + 2) / 3 * 4 + 1 < 2 ^ 64), if_neg (by omega), loaded,
      ok_bind, usizeSub_of_le (by omega) (by omega), hr, ok_bind]
    dsimp only
    rw [usizeSub_of_le (by omega) (by omega), hfinal, ok_bind, total,
      usize_of_lt (by omega : written + (rfc4648 e.pending).length < 2 ^ 64)]
  · rw [total, hcoded, ← front, List.take_append, List.take_of_length_le (by omega),
      Nat.add_sub_cancel_left, htail, coded]

/-- **The stream encodes the whole.** For every split of the input into calls of
`ct_base64_encoder_update`, each with room for the quads that it completes, and an end
with room for five characters, the characters put together are what
`ct_base64_encode` makes of the whole input, and what RFC 4648 does, of the length
that `CT_BASE64_ENCODE_LENGTH` gives. -/
theorem streams_encode (chunks : List Chunk) (data : List UInt8)
    (split : (chunks.map Chunk.bytes).flatten = data) (roomy : Roomy 0 chunks)
    {last buf : List UInt8} {lastMax bufMax : Nat} (five : 5 ≤ lastMax)
    (hlast : lastMax ≤ last.length) (room : encodeLength data.length + 1 ≤ bufMax)
    (hbuf : bufMax ≤ buf.length) (small : buf.length < 2 ^ 63) :
    ∃ out e n last' e' k buf', stream Encoder.init chunks = .ok (out, e) ∧
      e.final last lastMax = .ok (n, last', e') ∧
      encode (some data) data.length buf bufMax = .ok (k, buf') ∧
      out ++ last'.take n = buf'.take k ∧ out ++ last'.take n = rfc4648 data ∧
      (out ++ last'.take n).length = encodeLength data.length := by
  obtain ⟨out, e, hs, hcount, whole, hsplit, hwhole, hcoded⟩ :=
    stream_spec (e := Encoder.init) (Nat.succ_pos 2) roomy
  have hsplit : data = whole ++ e.pending := split.symm.trans hsplit
  obtain ⟨last', e', hfinal, htail⟩ := Encoder.final_spec last
    lastMax hcount (by split <;> omega) hlast
  obtain ⟨buf', hencode, hwritten⟩ := encode_spec data room hbuf (by omega)
  have all : out ++ last'.take (rfc4648 e.pending).length = rfc4648 data := by
    rw [htail, hcoded, hsplit, rfc4648_append e.pending hwhole]
  exact ⟨out, e, _, last', e', _, buf', hs, hfinal, hencode, all.trans hwritten.symm, all,
    all ▸ rfc4648_length data⟩

/-- "foobar" in an empty chunk, two single bytes, none and the rest. -/
theorem streams_encode_foobar : ∃ out e n last' e' k buf',
    stream Encoder.init [⟨some [], [], 0⟩, ⟨some [102], [], 0⟩, ⟨some [111], [], 0⟩,
      ⟨none, [], 0⟩, ⟨some [111, 98, 97, 114], List.replicate 8 0, 8⟩] = .ok (out, e) ∧
      e.final (List.replicate 5 0) 5 = .ok (n, last', e') ∧
      encode (some [102, 111, 111, 98, 97, 114]) 6 (List.replicate 9 0) 9 = .ok (k, buf') ∧
      out ++ last'.take n = buf'.take k ∧
      out ++ last'.take n = rfc4648 [102, 111, 111, 98, 97, 114] ∧
      (out ++ last'.take n).length = encodeLength 6 :=
  streams_encode _ [102, 111, 111, 98, 97, 114] (by decide) (by decide) (by decide) (by decide)
    (by decide) (by decide) (by decide)

example : rfc4648 [102, 111, 111, 98, 97] = "Zm9vYmE=".toList.map (fun c => UInt8.ofNat c.toNat) := by
  decide

/-! ## Calls without room -/

/-- Calls of a client of the encoder. -/
inductive Op
  | update (inp : Option (List UInt8)) (out : List UInt8) (outMax : Nat)
  | final (out : List UInt8) (outMax : Nat)

/-- One call: what it returns and what `out` holds, and the encoder after it. -/
def step (e : Encoder) : Op → Except Fault ((Nat × List UInt8) × Encoder)
  | .update inp out outMax => do
    let (n, out, e) ← e.update inp out outMax
    .ok ((n, out), e)
  | .final out outMax => do
    let (n, out, e) ← e.final out outMax
    .ok ((n, out), e)

/-- `out` has room for `out_max` characters. -/
def Allowed (_ : Encoder) : Op → Prop
  | .update _ out outMax | .final out outMax => outMax ≤ out.length ∧ out.length < 2 ^ 63

/-- There is no room for all the quads that the call completes. -/
def Short (e : Encoder) : Op → Prop
  | .update (some inp) _ outMax => outMax < 4 * ((e.count + inp.length) / 3)
  | .update none .. | .final .. => False

instance (e : Encoder) : DecidablePred (Short e)
  | .update (some _) .. => inferInstanceAs (Decidable (_ < _))
  | .update none .. | .final .. => inferInstanceAs (Decidable False)

/-- A call that returns 0 for lack of room leaves the encoder as it was, and so all
later calls. -/
def Atomic (e : Encoder) (op : Op) (r : Nat × List UInt8) (e' : Encoder) : Prop :=
  Short e op → r.1 = 0 ∧ e' = e ∧
    ∀ later, Lib.Machine.exec step e' later = Lib.Machine.exec step e later

/-- A call without room for the three bytes that another such call left pending, or
that ends with the same three bytes. -/
def Spares (e : Encoder) : Op → Prop
  | .update (some inp) out outMax => Short e (.update (some inp) out outMax) → e.count = 3 ∧
      (outMax < 4 ∨ (inp.drop (3 * ((outMax - 4) / 4))).take 3 = e.pending)
  | .update none .. | .final .. => True

namespace Encoder

variable {e : Encoder} {outMax : Nat} {out inp : List UInt8}

theorem eq_of_pending {e' : Encoder} (h : e.count = 3) (h' : e'.count = 3)
    (same : e'.pending = e.pending) : e' = e := by
  obtain ⟨b0, b1, b2, count⟩ := e
  obtain ⟨b0', b1', b2', count'⟩ := e'
  dsimp only at h h'
  subst h h'
  simp only [pending, List.take_succ_cons, List.take_zero, List.cons.injEq, and_true] at same
  obtain ⟨rfl, rfl, rfl⟩ := same
  rfl

/-- An update that first has to write three bytes that were left pending. -/
theorem update_held (inp : List UInt8) (h : e.count = 3) (room : 4 ≤ outMax) (hout : outMax ≤ out.length) :
    ∃ out₁, e.update (some inp) out outMax = updateLoop outMax { e with count := 0 } out₁ 4 inp ∧
      out₁.length = out.length := by
  obtain ⟨out₁, hstore, hlength, -⟩ := store_quad e out 0 (by omega)
  refine ⟨out₁, ?_, hlength⟩
  rw [update, if_pos h, if_neg (by omega), hstore, ok_bind]

theorem update_fits (hc : e.count ≤ 3) (inp : Option (List UInt8))
    (fits : ¬ Short e (.update inp out outMax)) (hout : outMax ≤ out.length)
    (small : out.length < 2 ^ 63) :
    ∃ r, e.update inp out outMax = .ok r ∧ r.2.2.count ≤ 3 := by
  cases inp with
  | none => exact ⟨(0, out, e), rfl, hc⟩
  | some inp =>
    have room : 4 * ((e.count + inp.length) / 3) ≤ outMax := Nat.le_of_not_lt fits
    by_cases held : e.count = 3
    · have more : (3 + inp.length) / 3 = (0 + inp.length) / 3 + 1 := by omega
      rw [held, more] at room
      obtain ⟨out₁, heq, hlength⟩ := update_held inp held (by omega) hout
      have rest : 4 + 4 * ((0 + inp.length) / 3) ≤ outMax := by omega
      obtain ⟨r, hr, flushed⟩ := updateLoop_spec (e := { e with count := 0 }) (Nat.succ_pos 2) rest
        (hlength.symm ▸ hout) (by omega)
      exact ⟨r, heq.trans hr, Nat.le_of_lt flushed.count⟩
    · have carry : e.count < 3 := by omega
      obtain ⟨r, hr, flushed⟩ := update_spec carry (some inp) room hout (by omega)
      exact ⟨r, hr, Nat.le_of_lt flushed.count⟩

/-- A call without room returns 0, and three bytes pend. -/
theorem update_short (hc : e.count ≤ 3) (short : Short e (.update (some inp) out outMax))
    (hout : outMax ≤ out.length) (small : out.length < 2 ^ 63) :
    ∃ out' e', e.update (some inp) out outMax = .ok (0, out', e') ∧ e'.count = 3 ∧
      (e' = e ↔ Spares e (.update (some inp) out outMax)) := by
  have lack : outMax < 4 * ((e.count + inp.length) / 3) := short
  simp only [Spares, short, true_imp_iff]
  by_cases held : e.count = 3
  · by_cases none : outMax < 4
    · refine ⟨out, e, ?_, held, by simp [held, none]⟩
      rw [update, if_pos held, if_pos none]
    · have more : (3 + inp.length) / 3 = (0 + inp.length) / 3 + 1 := by omega
      rw [held, more] at lack
      obtain ⟨out₁, heq, hlength⟩ := update_held inp held (by omega) hout
      have rest : outMax < 4 + 4 * ((0 + inp.length) / 3) := by omega
      obtain ⟨out', e', hr, hthree, hlast⟩ := updateLoop_short (e := { e with count := 0 }) inp
        (Nat.succ_pos 2) (by omega) rest (hlength.symm ▸ hout) (hlength.symm ▸ small)
      rw [pending_zero, List.nil_append] at hlast
      refine ⟨out', e', heq.trans hr, hthree, ?_⟩
      constructor
      · intro same
        exact ⟨held, Or.inr (by rw [← hlast, same])⟩
      · rintro ⟨-, few | same⟩
        · exact absurd few none
        · exact eq_of_pending held hthree (hlast.trans same)
  · obtain ⟨out', e', hr, hthree, -⟩ := updateLoop_short (e := e) inp (by omega)
      (Nat.zero_le outMax) (by simpa using lack) hout small
    refine ⟨out', e', ?_, hthree, ?_⟩
    · rw [update, if_neg held, hr]
    · constructor
      · intro same
        exact absurd (same ▸ hthree) held
      · exact fun h => absurd h.1 held

theorem final_total (hc : e.count ≤ 3) (hout : outMax ≤ out.length) :
    ∃ r, e.final out outMax = .ok r ∧ r.2.2.count ≤ 3 := by
  have done (chars : List UInt8) (room : chars.length + 1 ≤ out.length) {e' : Encoder}
      (he : e'.count ≤ 3) : ∃ r, finish e' out chars = .ok r ∧ r.2.2.count ≤ 3 := by
    obtain ⟨out', hr, -⟩ := finish_spec e' chars room
    exact ⟨_, hr, he⟩
  unfold final
  split_ifs with some full few one few two few none
  · exact ⟨_, rfl, hc⟩
  · exact done _ (by rw [quad_length]; omega) (Nat.zero_le 3)
  · exact ⟨_, rfl, hc⟩
  · exact done _ (by simp only [List.length_cons, List.length_nil]; omega) (Nat.zero_le 3)
  · exact ⟨_, rfl, hc⟩
  · exact done _ (by simp only [List.length_cons, List.length_nil]; omega) (Nat.zero_le 3)
  · omega
  · exact ⟨_, rfl, hc⟩
  · exact done [] (by simp only [List.length_nil]; omega) hc

end Encoder

theorem step_keeps {e : Encoder} {op : Op} (hc : e.count ≤ 3) (allowed : Allowed e op)
    (spares : Spares e op) :
    ∃ r e', step e op = .ok (r, e') ∧ Atomic e op r e' ∧ e'.count ≤ 3 := by
  cases op with
  | final out outMax =>
    obtain ⟨⟨n, out', e'⟩, hr, hcount⟩ := Encoder.final_total hc allowed.1
    exact ⟨(n, out'), e', by rw [step, hr, ok_bind], fun h => h.elim, hcount⟩
  | update inp out outMax =>
    by_cases short : Short e (.update inp out outMax)
    · cases inp with
      | none => exact short.elim
      | some inp =>
        obtain ⟨out', e', hr, -, same⟩ := Encoder.update_short hc short allowed.1 allowed.2
        obtain rfl := same.2 spares
        exact ⟨(0, out'), e', by rw [step, hr, ok_bind], fun _ => ⟨rfl, rfl, fun _ => rfl⟩, hc⟩
    · obtain ⟨⟨n, out', e'⟩, hr, hcount⟩ :=
        Encoder.update_fits hc inp short allowed.1 allowed.2
      exact ⟨(n, out'), e', by rw [step, hr, ok_bind], fun h => absurd h short, hcount⟩

theorem step_needs {e e' : Encoder} {op : Op} {r : Nat × List UInt8} (hc : e.count ≤ 3)
    (allowed : Allowed e op) (h : step e op = .ok (r, e')) (atomic : Atomic e op r e') :
    Spares e op := by
  cases op with
  | final out outMax => exact trivial
  | update inp out outMax =>
    cases inp with
    | none => exact trivial
    | some inp =>
      intro short
      obtain ⟨out', e₁, hr, -, same⟩ := Encoder.update_short hc short allowed.1 allowed.2
      rw [step, hr, ok_bind, Except.ok.injEq, Prod.mk.injEq] at h
      exact (same.1 (h.2.trans (atomic short).2.1)) short

/-- **Updates without room.** In every run of calls from `ct_base64_encoder_init`, each
update that returns 0 for lack of room leaves the encoder as it was, and with it all
that a repeated call and the end of the stream give, exactly if each such call meets
three bytes that another one left pending and has no room for these, or ends with the
same three bytes. -/
theorem short_runs (ops : List Op) (allowed : Lib.Machine.Meets step Allowed Encoder.init ops) :
    Lib.Machine.Along step (fun e => e.count ≤ 3) Atomic Encoder.init ops ↔
      Lib.Machine.Meets step Spares Encoder.init ops := by
  apply Lib.Machine.along_iff_meets (I := fun e : Encoder => e.count ≤ 3)
  · exact fun _ hc => hc
  · exact fun _ _ => step_keeps
  · exact fun _ _ _ _ hc allowed h atomic _ => step_needs hc allowed h atomic
  · exact Nat.zero_le 3
  · exact allowed

/-- Three bytes without room, and again. -/
theorem short_runs_twice : Lib.Machine.Along step (fun e => e.count ≤ 3) Atomic Encoder.init
      [.update (some [1, 2, 3]) [] 0, .update (some [1, 2, 3]) [] 0] ↔
    Lib.Machine.Meets step Spares Encoder.init
      [.update (some [1, 2, 3]) [] 0, .update (some [1, 2, 3]) [] 0] :=
  short_runs _ ⟨by simp [Allowed], fun _ _ _ => ⟨by simp [Allowed], fun _ _ _ => trivial⟩⟩

/-- The first call takes the three bytes and returns 0, and the same chunk with enough
room is encoded a second time. -/
theorem short_update_takes :
    Encoder.init.update (some [1, 2, 3]) [] 0 = .ok (0, [], ⟨1, 2, 3, 3⟩) ∧
      Lib.Machine.exec step Encoder.init
          [.update (some [1, 2, 3]) (List.replicate 8 0) 8, .final [0, 0, 0, 0, 0] 5] ≠
        Lib.Machine.exec step ⟨1, 2, 3, 3⟩
          [.update (some [1, 2, 3]) (List.replicate 8 0) 8, .final [0, 0, 0, 0, 0] 5] ∧
      ¬ Atomic Encoder.init (.update (some [1, 2, 3]) [] 0) (0, []) ⟨1, 2, 3, 3⟩ := by
  refine ⟨rfl, by decide, fun atomic => ?_⟩
  have same := (atomic (by decide)).2.1
  revert same
  decide

end Coter.Base64
