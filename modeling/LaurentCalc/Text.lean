import LaurentCalc.Decimal

/-!
# Text as it is typed

Blanks may stand anywhere in an expression, and around a number typed at a prompt.  Which
characters are blank is fixed by a table, the Unicode property `White_Space`: it is wider than
`Char.isWhitespace`, which knows only four ASCII characters.

Input arrives as bytes and is taken line by line.  A line ends with a line feed, except that the
last one may lack it.  Whether its bytes are UTF-8 is looked at for each line when it is its turn,
so a broken line does no harm to those before it.

* `isBlank`, `trimBlanks` — membership in the table, and a text without the blanks at its two ends.
* `lines`, `lineText?` — the lines of an input, each with its line feed, and the text of a line
  without the line end.
* `unsigned?` — the number that is typed: decimal digits, with an optional plus sign in front, below
  a bound.
-/

namespace LaurentCalc

/-! ## Blanks -/

/-- The code points with the property `White_Space`, as closed ranges in ascending order. -/
def blankRanges : List (Nat × Nat) :=
  [(0x0009, 0x000D), (0x0020, 0x0020), (0x0085, 0x0085), (0x00A0, 0x00A0), (0x1680, 0x1680),
    (0x2000, 0x200A), (0x2028, 0x2029), (0x202F, 0x202F), (0x205F, 0x205F), (0x3000, 0x3000)]

/-- The character has the property `White_Space`. -/
def isBlank (c : Char) : Bool := blankRanges.any fun r => r.1 ≤ c.toNat && c.toNat ≤ r.2

/-- The text without the blanks before its first and after its last other character. -/
def trimBlanks (text : String) : String :=
  String.ofList ((((text.toList.dropWhile isBlank).reverse).dropWhile isBlank).reverse)

/-! ## Lines -/

def lineFeed : UInt8 := 10

/-- The lines of an input.  Every line but the last ends with a line feed, and none is empty. -/
def lines : List UInt8 → List (List UInt8)
  | [] => []
  | b :: bs =>
      if b = lineFeed then [b] :: lines bs
      else match lines bs with
        | [] => [[b]]
        | l :: ls => (b :: l) :: ls

def isLineEnd (c : Char) : Bool := c = '\n' || c = '\r'

/-- The text without the line ends behind it. -/
def dropLineEnd (text : String) : String :=
  String.ofList ((text.toList.reverse.dropWhile isLineEnd).reverse)

def lineText? (line : List UInt8) : Option String :=
  (String.fromUTF8? ⟨line.toArray⟩).map dropLineEnd

/-! ## Numbers -/

/-- The characters behind an optional plus sign. -/
def dropPlus : List Char → List Char
  | '+' :: cs => cs
  | cs => cs

/-- The number below the bound that a text denotes. -/
def unsigned? (bound : Nat) (text : String) : Option Nat :=
  match (dropPlus text.toList).mapM Digit.ofChar? with
  | none => none
  | some [] => none
  | some ds => if Decimal.value ds < bound then some (Decimal.value ds) else none

end LaurentCalc
