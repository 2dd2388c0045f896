import LaurentCalc.Exact
import LaurentCalc.Decimal

/-!
# Terms

A term is one monomial `c * x^e`.  A term whose coefficient is zero may still carry an exponent:
cancelling two terms leaves one behind, and it is printed.  What such a term *means* is the zero
term, so the notions of degree, likeness and order below all look past the exponent of a zero.

* `Term` — a coefficient and an exponent.
* `Term.simplified`, `Term.degree?` — what is left when a zero forgets its exponent.
* `Term.Like` — the terms that can be added to one term.
* `Term.compare` — the order by degree, a zero counting as degree zero.
* `Term.negate` — negation that wraps at the least coefficient.
-/

namespace LaurentCalc

/-- The monomial `coefficient * x^exponent`.  Equality compares both fields. -/
structure Term where
  coefficient : Int64
  exponent : Int64
deriving DecidableEq, Repr

namespace Term

def zero : Term := ⟨0, 0⟩

/-- The term has a zero coefficient, whatever its exponent. -/
def IsZero (t : Term) : Prop := t.coefficient = 0

instance : DecidablePred IsZero := fun t => inferInstanceAs (Decidable (t.coefficient = 0))

/-- The term itself, except that a zero coefficient takes the exponent along. -/
def simplified (t : Term) : Term := if t.IsZero then zero else t

/-- The exponent of a term that is not zero. -/
def degree? (t : Term) : Option Int64 := if t.IsZero then none else some t.exponent

/-- Two terms are like when they have one exponent, or when one of them is zero. -/
def Like (a b : Term) : Prop := a.IsZero ∨ b.IsZero ∨ a.exponent = b.exponent

instance (a b : Term) : Decidable (Like a b) :=
  inferInstanceAs (Decidable (a.IsZero ∨ b.IsZero ∨ a.exponent = b.exponent))

/-- The order by degree: the exponents of the simplified terms are compared. -/
def compare (a b : Term) : Ordering :=
  Ord.compare a.simplified.exponent.toInt b.simplified.exponent.toInt

/-- The sign of the coefficient; zero counts as positive. -/
def sign (t : Term) : Sign := Sign.ofInt t.coefficient.toInt

/-- The absolute value of the coefficient, which need not fit in the 64 bits itself. -/
def magnitude (t : Term) : Nat := t.coefficient.toInt.natAbs

/-- The term with its coefficient negated.  The least coefficient has no opposite and stays. -/
def negate (t : Term) : Term := ⟨-t.coefficient, t.exponent⟩

end Term

end LaurentCalc
