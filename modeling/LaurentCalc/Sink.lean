/-!
# Where output goes

Output is written to a sink, which may have room for a limited number of bytes only.  A text that
does not fit is cut off at the last byte that does, and whoever writes has to stop there.

* `Sink` — what has been written, and how much there can be.
* `Sink.write`, `Sink.Accepts` — the sink after a text, and whether all of it went in.
* `Sink.accepts_of_unlimited` — without a limit, every text goes in.
* `StreamFault` — what can go wrong with the streams themselves.
-/

namespace LaurentCalc

/-- What can go wrong with a stream, as opposed to a calculation. -/
inductive StreamFault where
  /-- The bytes of a line are not UTF-8. -/
  | notUtf8
  /-- A text did not fit into the sink. -/
  | full
deriving DecidableEq, Repr

def StreamFault.message : StreamFault → String
  | notUtf8 => "stream did not contain valid UTF-8"
  | full => "failed to write whole buffer"

/-- The bytes written so far, and the number of bytes that there is room for. -/
structure Sink where
  written : ByteArray
  /-- No number means no limit. -/
  capacity : Option Nat

namespace Sink

def ofCapacity (capacity : Option Nat) : Sink := ⟨.empty, capacity⟩

def unlimited : Sink := ofCapacity none

/-- The bytes that there is room for. -/
def cut : Option Nat → ByteArray → ByteArray
  | none, bytes => bytes
  | some n, bytes => bytes.extract 0 n

/-- The sink after as much of a text as fits. -/
def write (out : Sink) (text : String) : Sink :=
  ⟨cut out.capacity (out.written ++ text.toUTF8), out.capacity⟩

/-- There is room for all of a text. -/
def Accepts (out : Sink) (text : String) : Prop :=
  match out.capacity with
  | none => True
  | some n => out.written.size + text.utf8ByteSize ≤ n

instance (out : Sink) (text : String) : Decidable (out.Accepts text) := by
  unfold Accepts
  split <;> infer_instance

theorem accepts_of_unlimited {out : Sink} (h : out.capacity = none) (text : String) :
    out.Accepts text := by
  rw [Accepts, h]
  trivial

end Sink

end LaurentCalc
