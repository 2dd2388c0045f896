import LaurentCalc.Decimal

/-!
# The symbols of an expression

Once the blanks are gone, an expression is a string over a small alphabet: the two signs, the ten
digits, the letter `x` and the caret.  The grammar is stated over these symbols, not over
characters, so an illegal character cannot reach it.

* `Symbol` — the alphabet.
* `Symbol.ofChar?`, `Symbol.char` — the symbol of a character and back.
* **`Symbol.ofChar?_eq_some_iff`** — the two are inverse, so a symbol may be reported by its
  character.
* `Numeral.symbols` — the symbols that spell a run of digits.
-/

namespace LaurentCalc

inductive Symbol where
  | sign (s : Sign)
  | digit (d : Digit)
  /-- The letter `x`. -/
  | indeterminate
  /-- The mark `^` between `x` and its exponent. -/
  | caret
deriving DecidableEq, Repr

namespace Symbol

def char : Symbol → Char
  | sign s => s.char
  | digit d => d.char
  | indeterminate => 'x'
  | caret => '^'

/-- The symbol that a character writes; most characters write none. -/
def ofChar? (c : Char) : Option Symbol :=
  match c with
  | '+' => some (sign .plus)
  | '-' => some (sign .minus)
  | 'x' => some indeterminate
  | '^' => some caret
  | c => (Digit.ofChar? c).map digit

@[simp] theorem ofChar?_char (y : Symbol) : ofChar? y.char = some y := by
  cases y with
  | sign s => cases s <;> rfl
  | digit d => revert d; decide
  | indeterminate => rfl
  | caret => rfl

/-- **The alphabet is faithful**: a character writes the symbol it is the character of. -/
theorem ofChar?_eq_some_iff {c : Char} {y : Symbol} : ofChar? c = some y ↔ y.char = c := by
  constructor
  · intro h
    rw [ofChar?.eq_def] at h
    split at h
    iterate 4 cases h; rfl
    obtain ⟨d, hd, rfl⟩ := Option.map_eq_some_iff.1 h
    exact Digit.char_of_ofChar? hd
  · rintro rfl
    exact ofChar?_char y

end Symbol

def Numeral.symbols (n : Numeral) : List Symbol := n.digits.map Symbol.digit

end LaurentCalc
