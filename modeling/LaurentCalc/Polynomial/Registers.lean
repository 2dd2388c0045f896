import LaurentCalc.Polynomial.Basic

/-!
# Registers

A calculation keeps its polynomials in numbered registers, from zero on.  A step forms one
polynomial out of texts, terms and registers; the result goes into a new register behind the
others, or replaces one that was added to.  A step that fails changes nothing.

* `RegisterStep` — the steps.
* `RegisterStep.result` — the polynomial that a step forms, or why there is none.
* `RegisterStep.target?` — the register it replaces, if it replaces one.
* `Registers.perform` — the registers after a step.
-/

namespace LaurentCalc

/-- The polynomials of a calculation, in the order in which they were made. -/
abbrev Registers := List Polynomial

/-- One step of a calculation.  Numbers refer to registers. -/
inductive RegisterStep where
  /-- Make the zero polynomial. -/
  | zero
  | ofText (text : String)
  | ofTerms (ts : List Term)
  | sumOfTexts (a b : String)
  | sum (summands : List Nat)
  | copy (source : Nat)
  | negate (source : Nat)
  /-- Add one register to another, or to itself. -/
  | add (target summand : Nat)
  | addText (target : Nat) (text : String)
deriving DecidableEq, Repr

/-- Why a step has no result. -/
inductive StepFault where
  | calculation (fault : Fault)
  /-- The step names a register that has not been made. -/
  | noRegister (number : Nat)
deriving DecidableEq, Repr

/-- What a successful step did. -/
inductive StepEffect where
  | made (number : Nat)
  | replaced (number : Nat)
deriving DecidableEq, Repr

namespace Registers

def read (rs : Registers) (i : Nat) : Except StepFault Polynomial :=
  match rs[i]? with
  | some p => .ok p
  | none => .error (.noRegister i)

end Registers

namespace RegisterStep

/-- The polynomial that a step forms. -/
def result (rs : Registers) : RegisterStep → Except StepFault Polynomial
  | zero => .ok .zero
  | ofText text => (Polynomial.ofText text).mapError .calculation
  | ofTerms ts => (Polynomial.ofTerms ts).mapError .calculation
  | sumOfTexts a b => (Polynomial.sumOfTexts a b).mapError .calculation
  | sum is => do
      let ps ← is.mapM rs.read
      (Polynomial.sum ps).mapError .calculation
  | copy i => rs.read i
  | negate i => do
      let p ← rs.read i
      p.negate.mapError .calculation
  | add i j => do
      let p ← rs.read i
      let q ← rs.read j
      (p.add q).mapError .calculation
  | addText i text => do
      let p ← rs.read i
      (p.addText text).mapError .calculation

/-- The register that a step replaces. -/
def target? : RegisterStep → Option Nat
  | add i _ => some i
  | addText i _ => some i
  | _ => none

end RegisterStep

/-- The registers after a step, and what it did to them. -/
def Registers.perform (rs : Registers) (step : RegisterStep) :
    Registers × Except StepFault StepEffect :=
  match step.result rs with
  | .error fault => (rs, .error fault)
  | .ok p =>
      match step.target? with
      | none => (rs ++ [p], .ok (.made rs.length))
      | some i => (rs.set i p, .ok (.replaced i))

end LaurentCalc
