import LaurentCalc.Polynomial.Basic

/-!
# What a polynomial says

A polynomial is asked for its leading term, its degree, its coefficients and its values.  All but
the last are read off its terms.

The value at a 64-bit integer is computed in 64 bits: every power, every product and every partial
sum has to fit.  The terms are taken from the highest exponent down, and the first number that does
not fit, or is not an integer, ends the evaluation.

* `Polynomial.leading?`, `Polynomial.degree?`, `Polynomial.coefficient` — what is read off.
* `natPower?` — a power with a natural exponent, by repeated squaring.
* `power` — a power with any exponent; a negative one only has integer powers of `1` and `-1`.
* `Polynomial.evaluate` — the value, or the reason why there is none.
-/

namespace LaurentCalc

/-! ## Reading off -/

namespace Polynomial

def leading? (p : Polynomial) : Option Term := p.terms.head?

/-- The highest exponent; the zero polynomial has none. -/
def degree? (p : Polynomial) : Option Int64 := p.leading?.map Term.exponent

def IsZero (p : Polynomial) : Prop := p.terms = []

instance : DecidablePred IsZero := fun p => inferInstanceAs (Decidable (p.terms = []))

/-- The coefficient at an exponent: zero where there is no term. -/
def coefficient (p : Polynomial) (e : Int64) : Int64 :=
  (p.terms.find? fun t => t.exponent = e).elim 0 Term.coefficient

end Polynomial

/-! ## Evaluation -/

/-- The power `b^n`, if it fits.  The square of the base is formed only for an exponent of at
least two, where it is never larger than the power itself. -/
def natPower? (b : Int64) (n : Nat) : Option Int64 :=
  if n = 0 then some 1
  else if n = 1 then some b
  else do
    let square ← mul? b b
    let p ← natPower? square (n / 2)
    if n % 2 = 0 then some p else mul? b p
termination_by n
decreasing_by omega

/-- The power `x^e`.  A negative power is an integer only for `1`, and for `-1` where it is the
sign of the parity of `e`. -/
def power (x e : Int64) : Except Fault Int64 :=
  if 0 ≤ e then
    match natPower? x e.toInt.toNat with
    | some p => .ok p
    | none => .error (.evaluationOverflow x)
  else if x = 1 then .ok 1
  else if x = -1 then .ok (if e.toInt % 2 = 0 then 1 else -1)
  else .error (.nonIntegral x e)

/-- A partial sum after one more term: the power, then the product, then the sum has to fit. -/
def addValue (x v : Int64) (t : Term) : Except Fault Int64 := do
  let p ← power x t.exponent
  match (mul? t.coefficient p).bind (add? v) with
  | some v' => .ok v'
  | none => .error (.evaluationOverflow x)

def Polynomial.evaluate (p : Polynomial) (x : Int64) : Except Fault Int64 :=
  p.terms.foldlM (addValue x) 0

end LaurentCalc
