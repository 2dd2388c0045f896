import LaurentCalc.Expression.Symbol

/-!
# Why an expression is refused

An expression can be refused for three reasons, and they are looked for one after the other: a
character outside the alphabet, a symbol (or the end) where the grammar allows none, and an
integer that does not fit in 64 bits.

* `Expectation` — what the grammar would have allowed instead.
* `Refusal` — the reason, with the place it was found at.
* `Refusal.message` — how the reason is put into words.

Positions count the characters of the text from one, blanks included.
-/

namespace LaurentCalc

/-- Something that could have stood at the place of a grammar error. -/
inductive Expectation where
  | polynomial
  | endOfInput
  | sign
  | indeterminate
  | exponent
  | digits
deriving DecidableEq, Repr

def Expectation.words : Expectation → String
  | polynomial => "a polynomial"
  | endOfInput => "end of input"
  | sign => "a sign"
  | indeterminate => "x"
  | exponent => "an exponent"
  | digits => "digits"

inductive Refusal where
  /-- A character that is neither blank nor a symbol. -/
  | illegalCharacter (c : Char) (position : Nat)
  /-- A symbol that cannot follow what stands before it. -/
  | unexpectedSymbol (found : Symbol) (position : Nat) (expected : List Expectation)
  /-- The text ends inside a term. -/
  | unexpectedEnd (expected : List Expectation)
  /-- A written integer that does not fit in 64 bits. -/
  | outOfRange (sign : Sign) (numeral : Numeral)
deriving DecidableEq, Repr

namespace Refusal

def alternatives (expected : List Expectation) : String :=
  " or ".intercalate (expected.map Expectation.words)

/-- How a written integer is quoted: its digits as they stand, behind a minus sign if there is
one.  A plus sign is not repeated. -/
def quote : Sign → Numeral → String
  | .plus, n => String.ofList n.chars
  | .minus, n => String.ofList ('-' :: n.chars)

def message : Refusal → String
  | illegalCharacter c p =>
      "illegal character '" ++ c.toString ++ "' at position " ++ Decimal.text p
  | unexpectedSymbol y p expected =>
      "unexpected '" ++ y.char.toString ++ "' at position " ++ Decimal.text p ++ ", expected "
        ++ alternatives expected
  | unexpectedEnd expected => "unexpected end of input, expected " ++ alternatives expected
  | outOfRange s n => quote s n ++ " does not fit in a 64-bit integer"

theorem message_unexpectedSymbol (y : Symbol) (p : Nat) (expected : List Expectation) :
    (unexpectedSymbol y p expected).message
      = "unexpected '" ++ y.char.toString ++ "' at position " ++ Decimal.text p ++ ", expected "
        ++ " or ".intercalate (expected.map Expectation.words) := rfl

end Refusal

end LaurentCalc
