import LaurentCalc.Expression.Refusal
import LaurentCalc.Term.Basic

/-!
# Written terms

Between an expression and its terms stand the *written* terms: what was written, digit by digit,
before any number is read off.  One type serves both directions.  The reader builds written terms
and takes their value; the printer chooses a written term for a term and spells it.

* `Power`, `Body`, `WrittenTerm` — the parts of a written term.  A numeral has at least one digit,
  so every value of these types is a term that can be written.
* `WrittenTerm.symbols` — how it is spelled.
* `WrittenTerm.term` — the term it denotes, or the first integer in it that does not fit.
* `Term.written`, `Term.text` — the canonical way to write a term.
* **`Term.term_written`** — a term is what its canonical writing denotes, over the whole range.
-/

namespace LaurentCalc

/-! ## The parts -/

structure Power where
  sign : Option Sign
  numeral : Numeral
deriving DecidableEq, Repr

/-- A term without its sign: a constant, or `x` with what stands before and behind it. -/
inductive Body where
  | constant (numeral : Numeral)
  | monomial (numeral : Option Numeral) (power : Option Power)
deriving DecidableEq, Repr

/-- A term as it is written.  The sign may be absent only in the first term of an expression. -/
structure WrittenTerm where
  sign : Option Sign
  body : Body
deriving DecidableEq, Repr

/-! ## Spelling -/

def signSymbols : Option Sign → List Symbol
  | none => []
  | some s => [.sign s]

def Power.symbols (p : Power) : List Symbol := .caret :: (signSymbols p.sign ++ p.numeral.symbols)

def Body.symbols : Body → List Symbol
  | constant n => n.symbols
  | monomial n p => (n.elim [] Numeral.symbols) ++ .indeterminate :: (p.elim [] Power.symbols)

def WrittenTerm.symbols (w : WrittenTerm) : List Symbol := signSymbols w.sign ++ w.body.symbols

/-! ## Value -/

/-- The 64-bit integer that a sign and a numeral denote, an absent sign being a plus. -/
def integer (s : Option Sign) (n : Numeral) : Except Refusal Int64 :=
  match int64? ((s.getD .plus).apply n.value) with
  | some w => .ok w
  | none => .error (.outOfRange (s.getD .plus) n)

/-- The exponent of `x`: one if none is written. -/
def Power.exponent : Option Power → Except Refusal Int64
  | none => .ok 1
  | some p => integer p.sign p.numeral

/-- The coefficient of `x`: one, with the sign of the term, if none is written. -/
def Body.coefficient (s : Option Sign) : Option Numeral → Except Refusal Int64
  | none => .ok (if s = some .minus then -1 else 1)
  | some n => integer s n

/-- The term that is denoted.  Where two of its integers do not fit, the exponent is the one
reported. -/
def WrittenTerm.term : WrittenTerm → Except Refusal Term
  | ⟨s, .constant n⟩ => do
      let c ← integer s n
      return ⟨c, 0⟩
  | ⟨s, .monomial n p⟩ => do
      let e ← Power.exponent p
      let c ← Body.coefficient s n
      return ⟨c, e⟩

/-! ## The canonical writing -/

/-- An exponent in canonical writing: no plus sign, no leading zeros. -/
def Power.ofInt (e : Int) : Power := ⟨if e < 0 then some .minus else none, .ofNat e.natAbs⟩

namespace Term

/-- The canonical writing without the sign: `x^0` is left out, and so are a coefficient of
magnitude one before an `x` and an exponent of one. -/
def body (t : Term) : Body :=
  if t.exponent = 0 then .constant (.ofNat t.magnitude)
  else .monomial (if t.magnitude = 1 then none else some (.ofNat t.magnitude))
    (if t.exponent = 1 then none else some (.ofInt t.exponent.toInt))

/-- The canonical writing of a term, with its sign in front. -/
def written (t : Term) : WrittenTerm := ⟨some t.sign, t.body⟩

def bodyChars (t : Term) : List Char := t.body.symbols.map Symbol.char

/-- The text of a term: always with a sign, without blanks. -/
def text (t : Term) : String := String.ofList (t.sign.char :: t.bodyChars)

end Term

/-- A numeral of the right magnitude, behind the right sign, denotes the integer. -/
theorem integer_ofNat {s : Option Sign} {w : Int64} (h : s.getD .plus = Sign.ofInt w.toInt) :
    integer s (.ofNat w.toInt.natAbs) = .ok w := by
  simp [integer, h]

theorem integer_powerOfInt (w : Int64) :
    integer (Power.ofInt w.toInt).sign (Power.ofInt w.toInt).numeral = .ok w := by
  refine integer_ofNat ?_
  rw [Power.ofInt, Sign.ofInt]
  split <;> rfl

/-- A coefficient of magnitude one is told by its sign alone. -/
theorem coefficient_of_magnitude_one {t : Term} (h : t.magnitude = 1) :
    (if some t.sign = some .minus then -1 else 1) = t.coefficient := by
  rw [Term.magnitude] at h
  rw [← Int64.toInt_inj, Term.sign, Sign.ofInt]
  by_cases hneg : t.coefficient.toInt < 0
  · rw [if_pos hneg, if_pos rfl, show (-1 : Int64).toInt = -1 from rfl]
    omega
  · rw [if_neg hneg, if_neg (by decide), show (1 : Int64).toInt = 1 from rfl]
    omega

/-- **The canonical writing of a term denotes the term**, whatever its coefficient and exponent:
the least coefficient has a magnitude that does not fit, but its writing does. -/
theorem Term.term_written (t : Term) : t.written.term = .ok t := by
  rw [Term.written, Term.body]
  have hc : integer (some t.sign) (.ofNat t.magnitude) = .ok t.coefficient := integer_ofNat rfl
  by_cases he : t.exponent = 0
  · rw [if_pos he]
    simp only [WrittenTerm.term, hc, bind, Except.bind, pure, Except.pure]
    rw [← he]
  · rw [if_neg he]
    have hp : Power.exponent (if t.exponent = 1 then none else some (.ofInt t.exponent.toInt))
        = .ok t.exponent := by
      by_cases h1 : t.exponent = 1
      · rw [if_pos h1, h1]
        rfl
      · rw [if_neg h1]
        exact integer_powerOfInt t.exponent
    have hn : Body.coefficient (some t.sign)
        (if t.magnitude = 1 then none else some (.ofNat t.magnitude)) = .ok t.coefficient := by
      by_cases h1 : t.magnitude = 1
      · rw [if_pos h1]
        exact congrArg Except.ok (coefficient_of_magnitude_one h1)
      · rw [if_neg h1]
        exact hc
    simp only [WrittenTerm.term, hp, hn, bind, Except.bind, pure, Except.pure]

end LaurentCalc
