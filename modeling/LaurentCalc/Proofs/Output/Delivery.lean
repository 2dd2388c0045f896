import LaurentCalc.Session
import LaurentCalc.Sink
import Mathlib.Tactic.Lemma

/-!
# Writing piece by piece

A run writes its output in pieces, and a piece that does not fit ends it.  Into how many pieces a
text is divided makes no difference to the sink: what is stored is as much of the whole text as
there is room for.  So the outcome of any number of writes can be told from the text that they make
up, and the piece that does not fit is the one in which the room runs out.

* `Write`, `Write.text` — a piece, with the session at the time.
* `Sink.deliver` — one piece after the other, up to the first that does not fit.
* **`Sink.write_append`**, `Sink.accepts_append` — pieces do not matter.
* **`Sink.deliver_fst`**, `Sink.exists_of_deliver_snd` — what is stored, and where it stops.
* `Sink.deliver_unlimited`, `deliver_of_le`, `deliver_of_lt` — the same for sinks of a given size.
-/

namespace LaurentCalc

/-- A piece of output, with the session that there is when it is written. -/
structure Write where
  session : Session
  text : String

/-- What a list of writes makes up. -/
def Write.join (ws : List Write) : String := String.join (ws.map Write.text)

@[simp] lemma Write.join_nil : join [] = "" := rfl

@[simp] lemma Write.join_cons (w : Write) (ws : List Write) :
    join (w :: ws) = w.text ++ join ws := by
  simp [join]

lemma Write.join_append (ws vs : List Write) : join (ws ++ vs) = join ws ++ join vs := by
  simp [join]

namespace Sink

/-! ## Pieces do not matter -/

lemma cut_cut_append (capacity : Option Nat) (x y : ByteArray) :
    cut capacity (cut capacity x ++ y) = cut capacity (x ++ y) := by
  cases capacity with
  | none => rfl
  | some n =>
      have hroom : n - (x.extract 0 n).size = n - x.size := by
        rw [ByteArray.size_extract]
        omega
      simp only [cut, ByteArray.extract_append, ByteArray.extract_extract, hroom]
      simp

/-- **Writing in two pieces** stores the same as writing in one. -/
theorem write_append (out : Sink) (a b : String) :
    out.write (a ++ b) = (out.write a).write b := by
  simp only [write, cut_cut_append, String.toUTF8_eq_toByteArray, String.toByteArray_append,
    ByteArray.append_assoc]

/-- A text fits if its pieces do, one after the other. -/
lemma accepts_append (out : Sink) (a b : String) :
    out.Accepts (a ++ b) ↔ out.Accepts a ∧ (out.write a).Accepts b := by
  obtain ⟨written, _ | n⟩ := out
  · simp [Accepts, write]
  · simp only [Accepts, write, cut, ByteArray.size_extract, ByteArray.size_append,
      String.utf8ByteSize_append, String.toUTF8_eq_toByteArray, String.size_toByteArray]
    omega

/-- Nothing is stored any more after a text that does not fit. -/
lemma write_append_of_not_accepts {out : Sink} {a : String} (h : ¬ out.Accepts a) (b : String) :
    out.write (a ++ b) = out.write a := by
  obtain ⟨written, _ | n⟩ := out
  · exact absurd trivial h
  · have hfull : n - (written ++ a.toByteArray).size = 0 := by
      rw [ByteArray.size_append, String.size_toByteArray]
      exact Nat.sub_eq_zero_of_le (Nat.le_of_not_le h)
    simp only [write, cut, String.toUTF8_eq_toByteArray, String.toByteArray_append,
      ← ByteArray.append_assoc, ByteArray.extract_append, hfull]
    simp

/-! ## One piece after the other -/

/-- The pieces are written until one does not fit: the sink in the end, and that piece. -/
def deliver : Sink → List Write → Sink × Option Write
  | out, [] => (out, none)
  | out, w :: ws =>
      if out.Accepts w.text then deliver (out.write w.text) ws else (out.write w.text, some w)

/-- The sink stores no more than there is room for.  A sink that is written to from the start is
always within its bounds. -/
def Bounded (out : Sink) : Prop := out.Accepts ""

lemma bounded_write (out : Sink) (text : String) : (out.write text).Bounded := by
  obtain ⟨written, _ | n⟩ := out
  · trivial
  · simp only [Bounded, Accepts, write, cut, ByteArray.size_extract, String.utf8ByteSize_empty]
    omega

lemma bounded_ofCapacity (capacity : Option Nat) : (ofCapacity capacity).Bounded := by
  cases capacity with
  | none => trivial
  | some n => exact Nat.zero_le n

lemma write_empty {out : Sink} (h : out.Bounded) : out.write "" = out := by
  obtain ⟨written, _ | n⟩ := out
  · simp [write, cut]
  · have hroom : max n written.size = n := Nat.max_eq_left h
    have hall : written.extract 0 n = written := by
      rw [← hroom, ByteArray.extract_zero_max_size]
    simp [write, cut, hall]

/-- **What is stored** in the end is what one write of the whole text would store. -/
theorem deliver_fst {out : Sink} (h : out.Bounded) (ws : List Write) :
    (out.deliver ws).1 = out.write (Write.join ws) := by
  induction ws generalizing out with
  | nil => exact (write_empty h).symm
  | cons w ws ih =>
      rw [deliver, Write.join_cons]
      split
      next => rw [ih (out.bounded_write w.text), write_append]
      next hfull => exact (write_append_of_not_accepts hfull _).symm

/-- Nothing is cut off exactly if the whole text fits. -/
lemma deliver_snd_eq_none_iff {out : Sink} (h : out.Bounded) (ws : List Write) :
    (out.deliver ws).2 = none ↔ out.Accepts (Write.join ws) := by
  induction ws generalizing out with
  | nil => exact iff_of_true rfl h
  | cons w ws ih =>
      rw [deliver, Write.join_cons, accepts_append]
      split
      next hw => rw [ih (out.bounded_write w.text), and_iff_right hw]
      next hw => simp [hw]

/-- **Where it stops**: at the piece before which everything fits, and with which it does not. -/
lemma exists_of_deliver_snd {out : Sink} {ws : List Write} {w : Write}
    (h : out.Bounded) (hw : (out.deliver ws).2 = some w) :
    ∃ before after, ws = before ++ w :: after ∧ out.Accepts (Write.join before)
      ∧ ¬ out.Accepts (Write.join (before ++ [w])) := by
  induction ws generalizing out with
  | nil => cases hw
  | cons v ws ih =>
      rw [deliver] at hw
      split at hw
      next hv =>
        obtain ⟨before, after, rfl, hbefore, hcrossing⟩ := ih (out.bounded_write v.text) hw
        refine ⟨v :: before, after, rfl, ?_, ?_⟩
        · rw [Write.join_cons, accepts_append]
          exact ⟨hv, hbefore⟩
        · rw [List.cons_append, Write.join_cons, accepts_append]
          exact fun hall => hcrossing hall.2
      next hv =>
        cases hw
        exact ⟨[], ws, rfl, h, by simpa using hv⟩

/-! ## Sinks of a given size -/

lemma written_ofCapacity (capacity : Option Nat) (text : String) :
    ((ofCapacity capacity).write text).written = cut capacity text.toUTF8 := by
  simp [ofCapacity, write]

lemma written_unlimited (text : String) : (unlimited.write text).written = text.toUTF8 :=
  written_ofCapacity none text

lemma written_of_le {n : Nat} {text : String} (h : text.utf8ByteSize ≤ n) :
    ((ofCapacity (some n)).write text).written = text.toUTF8 := by
  have hroom : max n text.toUTF8.size = n := Nat.max_eq_left h
  rw [written_ofCapacity, cut, ← hroom, ByteArray.extract_zero_max_size]

lemma accepts_ofCapacity (n : Nat) (text : String) :
    (ofCapacity (some n)).Accepts text ↔ text.utf8ByteSize ≤ n := by
  simp [ofCapacity, Accepts]

lemma deliver_unlimited (ws : List Write) :
    unlimited.deliver ws = (unlimited.write (Write.join ws), none) := by
  have hbounded : unlimited.Bounded := bounded_ofCapacity none
  exact Prod.ext (deliver_fst hbounded ws) ((deliver_snd_eq_none_iff hbounded ws).2 trivial)

lemma deliver_of_le {n : Nat} {ws : List Write} (h : (Write.join ws).utf8ByteSize ≤ n) :
    (ofCapacity (some n)).deliver ws = ((ofCapacity (some n)).write (Write.join ws), none) := by
  have hbounded := bounded_ofCapacity (some n)
  exact Prod.ext (deliver_fst hbounded ws)
    ((deliver_snd_eq_none_iff hbounded ws).2 ((accepts_ofCapacity n _).2 h))

/-- A sink that is too small for a text takes the writes up to the one that crosses its size. -/
lemma deliver_of_lt {n : Nat} {ws : List Write} (h : n < (Write.join ws).utf8ByteSize) :
    ∃ before w after, ws = before ++ w :: after ∧ (Write.join before).utf8ByteSize ≤ n
      ∧ n < (Write.join (before ++ [w])).utf8ByteSize
      ∧ (ofCapacity (some n)).deliver ws
        = ((ofCapacity (some n)).write (Write.join ws), some w) := by
  have hbounded := bounded_ofCapacity (some n)
  obtain ⟨w, hw⟩ : ∃ w, ((ofCapacity (some n)).deliver ws).2 = some w := by
    rw [← Option.ne_none_iff_exists', Ne, deliver_snd_eq_none_iff hbounded, accepts_ofCapacity]
    exact Nat.not_le_of_lt h
  obtain ⟨before, after, hws, hbefore, hcrossing⟩ := exists_of_deliver_snd hbounded hw
  rw [accepts_ofCapacity] at hbefore hcrossing
  exact ⟨before, w, after, hws, hbefore, Nat.lt_of_not_le hcrossing,
    Prod.ext (deliver_fst hbounded ws) hw⟩

end Sink

end LaurentCalc
