import LaurentCalc.Expression.WrittenTerm

/-!
# Adding terms, and what can go wrong

Every operation of the calculator that can fail fails with a `Fault`: a cause together with what
is needed to name it.  None is fatal; whoever asked reports it and carries on.

The first operations that can fail are those on single terms.  The sum of two like terms is a term,
provided its coefficient fits.  A sum that cancels keeps the exponent its parts shared; a zero term
lends its exponent to nobody.

* `Fault`, `Fault.message` — the causes, and the words for each.
* `Term.add` — the sum, or the reason why there is none.
* `Term.opposite` — the opposite of a term, refusing where `Term.negate` wraps.
* `Term.accumulate` — one step of a running total: a refused term leaves the total alone.
* `Term.totals` — every step of a running total that starts from zero.
-/

namespace LaurentCalc

/-! ## Faults -/

inductive Fault where
  /-- The text is not an expression in `x`. -/
  | malformed (text : String) (refusal : Refusal)
  /-- Two terms that are not like cannot be added to one term. -/
  | unlikeTerms (a b : Term)
  /-- The coefficient of a sum leaves 64 bits. -/
  | coefficientOverflow (a b : Term)
  /-- The coefficient of a term has no opposite in 64 bits. -/
  | negationOverflow (t : Term)
  /-- The value at `x`, or a number on the way to it, leaves 64 bits. -/
  | evaluationOverflow (x : Int64)
  /-- A negative power of `x` is not an integer. -/
  | nonIntegral (x exponent : Int64)
  /-- There is no entry at this position of a list of this length. -/
  | noSuchEntry (position length : Nat)
deriving DecidableEq, Repr

def Fault.message : Fault → String
  | malformed text refusal => "malformed expression '" ++ text ++ "': " ++ refusal.message
  | unlikeTerms a b => "cannot add unlike terms " ++ a.text ++ " and " ++ b.text
  | coefficientOverflow a b => "coefficient overflow while adding " ++ a.text ++ " and " ++ b.text
  | negationOverflow t =>
      "cannot negate " ++ t.text ++ ": the result does not fit in a 64-bit integer"
  | evaluationOverflow x =>
      "value at x = " ++ Decimal.signedText x.toInt ++ " does not fit in a 64-bit integer"
  | nonIntegral x e =>
      "x^" ++ Decimal.signedText e.toInt ++ " is not an integer at x = "
        ++ Decimal.signedText x.toInt
  | noSuchEntry position 0 => "no polynomial " ++ Decimal.text position ++ ": the list is empty"
  | noSuchEntry position length =>
      "no polynomial " ++ Decimal.text position ++ ": choose a number from 1 to "
        ++ Decimal.text length

/-! ## Addition -/

namespace Term

/-- The exponent of a sum: that of the first term that is not zero, and zero if there is none. -/
def sharedExponent (a b : Term) : Int64 :=
  if a.IsZero then b.simplified.exponent else a.exponent

def add (a b : Term) : Except Fault Term :=
  if a.Like b then
    match add? a.coefficient b.coefficient with
    | some c => .ok ⟨c, sharedExponent a b⟩
    | none => .error (.coefficientOverflow a b)
  else .error (.unlikeTerms a b)

/-- The opposite of a term, if its coefficient has one. -/
def opposite (t : Term) : Except Fault Term :=
  match int64? (-t.coefficient.toInt) with
  | some c => .ok ⟨c, t.exponent⟩
  | none => .error (.negationOverflow t)

/-- A total after one more term, and whether the term was taken. -/
def accumulate (total t : Term) : Term × Except Fault Unit :=
  match total.add t with
  | .ok total' => (total', .ok ())
  | .error fault => (total, .error fault)

/-- The totals after each of the terms, starting from `total` and passing over refused terms. -/
def totalsFrom (total : Term) : List Term → List (Term × Except Fault Unit)
  | [] => []
  | t :: ts => total.accumulate t :: totalsFrom (total.accumulate t).1 ts

def totals (ts : List Term) : List (Term × Except Fault Unit) := totalsFrom zero ts

end Term

end LaurentCalc
