import LaurentCalc.CanonicalForm
import LaurentCalc.Expression.Stage

/-!
# Polynomials

A polynomial in `x`, negative exponents allowed, is a canonical list of terms.  That the list is
canonical is part of the type, so every way to make a polynomial goes through the canonical form,
and two polynomials are equal as soon as their terms are.

* `Polynomial` — the type; the zero polynomial has no terms.
* `Polynomial.ofTerms`, `Polynomial.ofText` — from terms in any order, and from an expression.
* `Polynomial.add`, `Polynomial.addText` — all the terms together, brought to canonical form once.
* `Polynomial.sum` — one addition after the other, so a partial sum can overflow.
* `Polynomial.text` — how a polynomial is printed.
* **`Polynomial.map_terms_ofTerms`** — making a polynomial is computing the canonical form.

Nothing here changes a polynomial: an operation that fails has no result, and whoever asked still
has the operands.
-/

namespace LaurentCalc

/-- A canonical list of terms. -/
structure Polynomial where
  terms : List Term
  canonical : Canonical terms
deriving DecidableEq, Repr

namespace Polynomial

/-! ## Making polynomials -/

def zero : Polynomial := ⟨[], by decide⟩

def ofTerms (ts : List Term) : Except Fault Polynomial :=
  match h : canonicalForm ts with
  | .ok r => .ok ⟨r, canonical_of_canonicalForm h⟩
  | .error fault => .error fault

def ofText (text : String) : Except Fault Polynomial := do
  let ts ← termsOfText text
  ofTerms ts

/-- **Making a polynomial computes the canonical form**, with the same failures. -/
theorem map_terms_ofTerms (ts : List Term) : (ofTerms ts).map terms = canonicalForm ts := by
  rw [ofTerms]
  split
  next h => exact h.symm
  next h => exact h.symm

/-! ## Arithmetic -/

def add (p q : Polynomial) : Except Fault Polynomial := ofTerms (p.terms ++ q.terms)

/-- The sum of a polynomial and an expression.  The terms of the expression are not combined
among themselves first. -/
def addText (p : Polynomial) (text : String) : Except Fault Polynomial := do
  let ts ← termsOfText text
  ofTerms (p.terms ++ ts)

/-- The sum of a list of polynomials, added to zero one after the other. -/
def sum (ps : List Polynomial) : Except Fault Polynomial := ps.foldlM add zero

/-- The sum of two expressions, added to zero one after the other. -/
def sumOfTexts (a b : String) : Except Fault Polynomial := do
  let p ← zero.addText a
  p.addText b

/-- The polynomial of the negated terms.  The least coefficient has no opposite and stays. -/
def negate (p : Polynomial) : Except Fault Polynomial := ofTerms (p.terms.map Term.negate)

/-! ## Printing -/

/-- The characters of a term behind other terms: its sign stands between blanks. -/
def followingChars (t : Term) : List Char := ' ' :: t.sign.char :: ' ' :: t.bodyChars

/-- The characters of the first term: only a minus sign is written, and without a blank. -/
def leadingChars (t : Term) : List Char :=
  match t.sign with
  | .plus => t.bodyChars
  | .minus => '-' :: t.bodyChars

/-- The characters of a list of terms; a zero stands for no terms at all. -/
def chars : List Term → List Char
  | [] => ['0']
  | t :: ts => leadingChars t ++ ts.flatMap followingChars

def text (p : Polynomial) : String := String.ofList (chars p.terms)

end Polynomial

end LaurentCalc
