import LaurentCalc.Proofs.Menu.Rounds
import LaurentCalc.Proofs.Output.Delivery
import LaurentCalc.Program

/-!
# A sink that fills up

When the sink is full, a run stops in the middle of a text, with whatever it has done to the
session by then.  It has done nothing else than a run on a sink without a limit: up to that point
the two go side by side.

Both kinds of run look at the sink for one thing only, whether the next piece fits.  So each of
them is the delivery of a list of writes that does not depend on the sink, and what a limit does
to a delivery is known.

* `Menu.record`, `Summation.writes` — the writes of a run that nothing stops.
* **`Menu.converse_deliver`**, `Summation.runFrom_deliver` — a run is the delivery of its writes.
* `Menu.run_moment` — each write of the record belongs to a moment of the run: the run held up
  after as many lines ends with it.
* **`limit_truncates`** — the limit cuts the output, and nothing else.
-/

namespace LaurentCalc

namespace Menu

/-! ## The dialogue as a delivery -/

/-- The writes of a dialogue from a prompt on, if all of them fit. -/
def writes (s : Session) (prompt : Prompt) : List (List UInt8) → List Write
  | [] => []
  | l :: ls =>
      match lineText? l with
      | none => []
      | some line =>
          let turn := reply s prompt line
          ⟨turn.session, turn.output⟩ :: match turn.next with
            | some prompt' => writes turn.session prompt' ls
            | none => []

/-- The writes of a dialogue over a whole input. -/
def record (s : Session) (input : List UInt8) : List Write :=
  ⟨s, opening⟩ :: writes s .selection (lines input)

section Line

variable {s : Session} {prompt : Prompt} {l : List UInt8} {line : String}

lemma writes_of_notUtf8 (hl : lineText? l = none) (ls : List (List UInt8)) :
    writes s prompt (l :: ls) = [] := by
  rw [writes, hl]

lemma writes_of_next (hl : lineText? l = some line) {prompt' : Prompt}
    (hnext : (reply s prompt line).next = some prompt') (ls : List (List UInt8)) :
    writes s prompt (l :: ls)
      = ⟨(reply s prompt line).session, (reply s prompt line).output⟩
        :: writes (reply s prompt line).session prompt' ls := by
  simp only [writes, hl, hnext]

lemma writes_of_end (hl : lineText? l = some line) (hnext : (reply s prompt line).next = none)
    (ls : List (List UInt8)) :
    writes s prompt (l :: ls)
      = [⟨(reply s prompt line).session, (reply s prompt line).output⟩] := by
  simp only [writes, hl, hnext]

end Line

/-- How a dialogue ends whose writes have been delivered.  If all of them fit, the session and the
fault are those of a dialogue without a limit; if one does not, the session is that of the
moment. -/
def ended (free : Ending) : Sink × Option Write → Ending
  | (out, none) => ⟨free.session, out, free.fault⟩
  | (out, some w) => ⟨w.session, out, some .full⟩

/-- **A dialogue is the delivery of its writes.** -/
theorem converse_deliver {free : Sink} (hfree : free.capacity = none) (s : Session)
    (prompt : Prompt) (out : Sink) (ls : List (List UInt8)) :
    converse s prompt out ls
      = ended (converse s prompt free ls) (out.deliver (writes s prompt ls)) := by
  induction ls generalizing s prompt out free with
  | nil => rfl
  | cons l ls ih =>
      cases hl : lineText? l with
      | none =>
          rw [writes_of_notUtf8 hl, converse, converse, answer_of_notUtf8 hl, answer_of_notUtf8 hl]
          rfl
      | some line =>
          by_cases hfits : out.Accepts (reply s prompt line).output
          · cases hnext : (reply s prompt line).next with
            | none =>
                rw [writes_of_end hl hnext, converse_of_end hfree hl hnext, converse,
                  answer_of_end hfits hl hnext, Sink.deliver, if_pos hfits]
                rfl
            | some prompt' =>
                have hfree' : (free.write (reply s prompt line).output).capacity = none := hfree
                rw [writes_of_next hl hnext, converse_of_next hfree hl hnext, converse,
                  answer_of_next hfits hl hnext, Sink.deliver, if_pos hfits]
                exact ih hfree' _ _ _
          · -- it stops at the first write, whatever would come after it
            rw [converse, answer_of_full hfits hl]
            simp only [writes, hl, Sink.deliver, if_neg hfits]
            rfl

/-- So is the dialogue over a whole input. -/
lemma run_deliver (s : Session) (out : Sink) (input : List UInt8) :
    run s out input = ended (run s .unlimited input) (out.deliver (record s input)) := by
  have hopened : Sink.unlimited.Accepts opening := trivial
  have hfree : (Sink.unlimited.write opening).capacity = none := rfl
  rw [record, Sink.deliver]
  by_cases hfits : out.Accepts opening
  · rw [run, run, if_pos hfits, if_pos hfits, if_pos hopened]
    exact converse_deliver hfree s .selection (out.write opening) (lines input)
  · rw [run, if_neg hfits, if_neg hfits]
    rfl

/-! ## The moments of a dialogue -/

lemma writes_take (s : Session) (prompt : Prompt) (ls : List (List UInt8)) (k : Nat) :
    writes s prompt (ls.take k) = (writes s prompt ls).take k := by
  induction ls generalizing s prompt k with
  | nil => simp [writes]
  | cons l ls ih =>
      cases k with
      | zero => rfl
      | succ k =>
          rw [List.take_succ_cons]
          cases hl : lineText? l with
          | none => rw [writes_of_notUtf8 hl, writes_of_notUtf8 hl, List.take_nil]
          | some line =>
              cases hnext : (reply s prompt line).next with
              | none =>
                  rw [writes_of_end hl hnext, writes_of_end hl hnext, List.take_succ_cons,
                    List.take_nil]
              | some prompt' =>
                  rw [writes_of_next hl hnext, writes_of_next hl hnext, List.take_succ_cons, ih]

/-- The session of a dialogue without a limit is that of its last write. -/
lemma session_converse {free : Sink} (hfree : free.capacity = none) (s : Session)
    (prompt : Prompt) (ls : List (List UInt8)) :
    (converse s prompt free ls).session
      = ((writes s prompt ls).getLast?.map Write.session).getD s := by
  induction ls generalizing s prompt free with
  | nil => rfl
  | cons l ls ih =>
      cases hl : lineText? l with
      | none =>
          rw [writes_of_notUtf8 hl]
          simp [converse, answer_of_notUtf8 hl]
      | some line =>
          cases hnext : (reply s prompt line).next with
          | none =>
              rw [writes_of_end hl hnext, converse_of_end hfree hl hnext]
              rfl
          | some prompt' =>
              have hfree' : (free.write (reply s prompt line).output).capacity = none := hfree
              rw [writes_of_next hl hnext, converse_of_next hfree hl hnext, ih hfree',
                List.getLast?_cons]
              cases (writes (reply s prompt line).session prompt' ls).getLast? <;> rfl

lemma session_run (s : Session) (input : List UInt8) :
    (record s input).getLast?.map Write.session = some (run s .unlimited input).session := by
  have hopened : Sink.unlimited.Accepts opening := trivial
  rw [record, List.getLast?_cons, run, if_pos hopened, session_converse rfl]
  cases (writes s .selection (lines input)).getLast? <;> rfl

/-- **Every write has its moment.**  The run that is held up after `k` lines, by the end of its
input, ends with the `k`-th write of the record, counted from zero, and with the session of it. -/
theorem run_moment {s : Session} {input : List UInt8} {k : Nat} {w : Write}
    (h : (record s input)[k]? = some w) :
    (run s .unlimited ((lines input).take k).flatten).session = w.session
      ∧ (run s .unlimited ((lines input).take k).flatten).output.written
        = (Write.join ((record s input).take (k + 1))).toUTF8 := by
  have hrecord : record s ((lines input).take k).flatten = (record s input).take (k + 1) := by
    rw [record, lines_take, writes_take]
    rfl
  have hlast : (record s ((lines input).take k).flatten).getLast? = some w := by
    rw [hrecord, List.getLast?_take, if_neg k.succ_ne_zero, Nat.add_sub_cancel, h]
    rfl
  refine ⟨?_, ?_⟩
  · have hsession := session_run s ((lines input).take k).flatten
    rw [hlast] at hsession
    exact (Option.some.inj hsession).symm
  · rw [run_deliver, Sink.deliver_unlimited, ← hrecord]
    exact Sink.written_ofCapacity none _

/-! ## A limit on a dialogue -/

lemma written_run (s : Session) (input : List UInt8) :
    (run s .unlimited input).output.written = (Write.join (record s input)).toUTF8 := by
  rw [run_deliver, Sink.deliver_unlimited]
  exact Sink.written_ofCapacity none _

lemma run_of_le {s : Session} {input : List UInt8} {n : Nat}
    (h : (Write.join (record s input)).utf8ByteSize ≤ n) :
    run s (.ofCapacity (some n)) input
      = ⟨(run s .unlimited input).session,
        (Sink.ofCapacity (some n)).write (Write.join (record s input)),
        (run s .unlimited input).fault⟩ := by
  rw [run_deliver, Sink.deliver_of_le h]
  rfl

lemma exists_run_of_lt {s : Session} {input : List UInt8} {n : Nat}
    (h : n < (Write.join (record s input)).utf8ByteSize) :
    ∃ before w after, record s input = before ++ w :: after
      ∧ (Write.join before).utf8ByteSize ≤ n
      ∧ n < (Write.join (before ++ [w])).utf8ByteSize
      ∧ run s (.ofCapacity (some n)) input
        = ⟨w.session, (Sink.ofCapacity (some n)).write (Write.join (record s input)),
          some .full⟩ := by
  obtain ⟨before, w, after, hrecord, hbefore, hcrossing, hdeliver⟩ := Sink.deliver_of_lt h
  refine ⟨before, w, after, hrecord, hbefore, hcrossing, ?_⟩
  rw [run_deliver, hdeliver]
  rfl

end Menu

/-! ## Summation as a delivery -/

namespace Summation

/-- The writes of a run over the remaining expressions, if all of them fit. -/
def writes (s : Session) : List String → List Write
  | [] =>
      match s.sum with
      | .ok p => [⟨s, "sum: " ++ p.text ++ "\n"⟩]
      | .error _ => []
  | e :: es =>
      match Polynomial.ofText e with
      | .error _ => []
      | .ok p =>
          let s' := s.push p
          ⟨s', Session.entryLine s'.length p ++ "\n"⟩ :: writes s' es

/-- How a run ends whose writes have been delivered. -/
def ended (free : Report) : Sink × Option Write → Report
  | (out, none) => ⟨free.status, out, free.complaint⟩
  | (out, some _) => ⟨.error .full, out, ""⟩

/-- **A run is the delivery of its writes.** -/
theorem runFrom_deliver {free : Sink} (hfree : free.capacity = none) (s : Session) (out : Sink)
    (es : List String) :
    runFrom s out es = ended (runFrom s free es) (out.deliver (writes s es)) := by
  induction es generalizing s out free with
  | nil =>
      cases hsum : s.sum with
      | error fault =>
          simp only [runFrom, writes, hsum]
          rfl
      | ok p =>
          simp only [runFrom, writes, hsum, conclude, Sink.deliver,
            if_pos (Sink.accepts_of_unlimited hfree _)]
          split <;> rfl
  | cons e es ih =>
      cases he : Polynomial.ofText e with
      | error fault =>
          simp only [runFrom, writes, he]
          rfl
      | ok p =>
          have hfree' : ∀ line, (free.write line).capacity = none := fun _ => hfree
          simp only [runFrom, writes, he, Sink.deliver,
            if_pos (Sink.accepts_of_unlimited hfree _)]
          split
          · exact ih (hfree' _) _ _
          · rfl

lemma run_deliver (out : Sink) (es : List String) :
    run out es = ended (run .unlimited es) (out.deliver (writes .empty es)) :=
  runFrom_deliver rfl .empty out es

lemma written_run (es : List String) :
    (run .unlimited es).output.written = (Write.join (writes .empty es)).toUTF8 := by
  rw [run_deliver, Sink.deliver_unlimited]
  exact Sink.written_ofCapacity none _

lemma run_of_le {es : List String} {n : Nat}
    (h : (Write.join (writes .empty es)).utf8ByteSize ≤ n) :
    run (.ofCapacity (some n)) es
      = ⟨(run .unlimited es).status,
        (Sink.ofCapacity (some n)).write (Write.join (writes .empty es)),
        (run .unlimited es).complaint⟩ := by
  rw [run_deliver, Sink.deliver_of_le h]
  rfl

lemma run_of_lt {es : List String} {n : Nat}
    (h : n < (Write.join (writes .empty es)).utf8ByteSize) :
    run (.ofCapacity (some n)) es
      = ⟨.error .full, (Sink.ofCapacity (some n)).write (Write.join (writes .empty es)), ""⟩ := by
  obtain ⟨_, _, _, -, -, -, hdeliver⟩ := Sink.deliver_of_lt h
  rw [run_deliver, hdeliver]
  rfl

end Summation

/-! ## The limit -/

open Write Sink in
/-- **A limit only truncates.**  The record of a dialogue makes up the output of the run without a
limit, and its writes are the moments of that run, held up after more and more lines.  If the
output fits, the limit makes no difference.  If it does not, the limited run fails, has stored what
there was room for, and has the session of the first write that goes beyond the limit.  A summation
without a limit and one with it compare in the same way; its complaint is empty if it fails. -/
theorem limit_truncates (s : Session) (input : List UInt8) (es : List String) (n : Nat) :
    (let free := Menu.run s .unlimited input
      let limited := Menu.run s (.ofCapacity (some n)) input
      let record := Menu.record s input
      free.output.written = (join record).toUTF8
      ∧ (∀ k w, record[k]? = some w →
        let moment := Menu.run s .unlimited ((lines input).take k).flatten
        moment.session = w.session
          ∧ moment.output.written = (join (record.take (k + 1))).toUTF8)
      ∧ (free.output.written.size ≤ n →
        limited.fault = free.fault ∧ limited.output.written = free.output.written
          ∧ limited.session = free.session)
      ∧ (n < free.output.written.size →
        limited.fault = some .full ∧ limited.output.written = free.output.written.extract 0 n
          ∧ ∃ before w after, record = before ++ w :: after
            ∧ (join before).utf8ByteSize ≤ n ∧ n < (join (before ++ [w])).utf8ByteSize
            ∧ limited.session = w.session))
    ∧ (let free := Summation.run .unlimited es
      let limited := Summation.run (.ofCapacity (some n)) es
      (free.output.written.size ≤ n →
        limited.status = free.status ∧ limited.output.written = free.output.written
          ∧ limited.complaint = free.complaint)
      ∧ (n < free.output.written.size →
        limited.status = .error .full
          ∧ limited.output.written = free.output.written.extract 0 n
          ∧ limited.complaint = "")) := by
  refine ⟨?_, ?_⟩
  · intro free limited record
    have hfree : free.output.written = (join record).toUTF8 := Menu.written_run s input
    refine ⟨hfree, fun k w hw => Menu.run_moment hw, fun hle => ?_, fun hlt => ?_⟩
    · rw [hfree] at hle ⊢
      have hlimited : limited = _ := Menu.run_of_le hle
      rw [hlimited]
      exact ⟨rfl, written_of_le hle, rfl⟩
    · rw [hfree] at hlt ⊢
      obtain ⟨before, w, after, hrecord, hbefore, hcrossing, hlimited⟩ :=
        Menu.exists_run_of_lt hlt
      rw [show limited = _ from hlimited]
      exact ⟨rfl, written_ofCapacity (some n) _, before, w, after, hrecord, hbefore, hcrossing,
        rfl⟩
  · intro free limited
    have hfree : free.output.written = (join (Summation.writes .empty es)).toUTF8 :=
      Summation.written_run es
    refine ⟨fun hle => ?_, fun hlt => ?_⟩
    · rw [hfree] at hle ⊢
      have hlimited : limited = _ := Summation.run_of_le hle
      rw [hlimited]
      exact ⟨rfl, written_of_le hle, rfl⟩
    · rw [hfree] at hlt ⊢
      have hlimited : limited = _ := Summation.run_of_lt hlt
      rw [hlimited]
      exact ⟨rfl, written_ofCapacity (some n) _, rfl⟩

/-- The line that confirms an entry is cut off, so the entry stays, although it is deleted later;
and the sum of two expressions is cut off. -/
theorem limit_truncates_confirmation :
    let input := "1\nx\n2\n1\n5\n".toUTF8.data.toList
    ((Menu.run .empty .unlimited input).session.entries = []
        ∧ (Menu.run .empty .unlimited input).output.written.size ≤ 468
        ∧ (Menu.run .empty (.ofCapacity (some 468)) input).fault
          = (Menu.run .empty .unlimited input).fault)
      ∧ (155 < (Menu.run .empty .unlimited input).output.written.size
        ∧ (Menu.run .empty (.ofCapacity (some 155)) input).fault = some .full
        ∧ (Menu.run .empty (.ofCapacity (some 155)) input).output.written
          = (Menu.run .empty .unlimited input).output.written.extract 0 155
        ∧ (Menu.run .empty (.ofCapacity (some 155)) input).session.entries.map Polynomial.text
          = ["x"])
      ∧ (20 < (Summation.run .unlimited ["x", "2 - x"]).output.written.size
        ∧ (Summation.run (.ofCapacity (some 20)) ["x", "2 - x"]).status = .error .full) := by
  intro input
  have hle : (Menu.run .empty .unlimited input).output.written.size ≤ 468 := by decide +kernel
  have hlt : 155 < (Menu.run .empty .unlimited input).output.written.size := by decide +kernel
  have hsum : 20 < (Summation.run .unlimited ["x", "2 - x"]).output.written.size := by
    decide +kernel
  have hfits := (limit_truncates .empty input ["x", "2 - x"] 468).1.2.2.1 hle
  have hcut := (limit_truncates .empty input ["x", "2 - x"] 155).1.2.2.2 hlt
  have hfull := (limit_truncates .empty input ["x", "2 - x"] 20).2.2 hsum
  exact ⟨⟨by decide +kernel, hle, hfits.1⟩, ⟨hlt, hcut.1, hcut.2.1, by decide +kernel⟩, hsum,
    hfull.1⟩

end LaurentCalc
