import LaurentCalc.Expression.Located
import LaurentCalc.Term.Addition

/-!
# Reading expressions

An expression is read from left to right, one symbol at a time and without looking ahead.  All
that has to be remembered is the term that is being read, as far as it goes; there are seven kinds
of such beginnings, and the kind alone decides which symbols may follow.

This is the second of three looks at a text: characters to symbols, symbols to written terms,
written terms to terms.  Each look can refuse, and a later one is not taken before the earlier one
is through: an illegal character is reported whatever else is wrong, and an integer that does not
fit only when the grammar has nothing to object.

* `Stage` — the beginning of a term.
* `Stage.extend?`, `Stage.close?` — one symbol more of the term, and the term if it may end here.
* `Stage.step?` — what a symbol does: it continues the term, or it is the sign of the next one.
* `Stage.expected` — what a refusal names as possible.
* `readWritten` — the written terms of located symbols, or the first symbol at which every
  continuation is lost.
* **`Stage.symbols_step?`** — a step neither drops nor invents a symbol.
* `valuesOf` — the terms that written terms denote, or the first integer that does not fit.
* `readTerms`, `termsOfText` — the three looks, one after the other: the terms of a text in the
  order written, neither combined nor sorted, or the refusal, or the fault.
-/

namespace LaurentCalc

/-! ## The beginning of a term -/

/-- How far the term that is being read has come.  Each stage holds the parts read so far: the
sign of the term, its coefficient, the sign of its exponent and the exponent. -/
inductive Stage where
  /-- Nothing has been read at all. -/
  | start
  /-- A sign has been read. -/
  | signed (s : Sign)
  /-- The last symbol was a digit of the coefficient. -/
  | coefficient (s : Option Sign) (n : Numeral)
  /-- The last symbol was the letter `x`. -/
  | indeterminate (s : Option Sign) (n : Option Numeral)
  /-- The last symbol was the caret. -/
  | caret (s : Option Sign) (n : Option Numeral)
  /-- The last symbol was the sign of the exponent. -/
  | exponentSign (s : Option Sign) (n : Option Numeral) (e : Sign)
  /-- The last symbol was a digit of the exponent. -/
  | exponent (s : Option Sign) (n : Option Numeral) (e : Option Sign) (m : Numeral)
deriving DecidableEq, Repr

namespace Stage

/-- The stage after one more symbol of the same term. -/
def extend? : Stage → Symbol → Option Stage
  | start, .sign s => some (signed s)
  | start, .digit d => some (coefficient none (.single d))
  | start, .indeterminate => some (indeterminate none none)
  | signed s, .digit d => some (coefficient (some s) (.single d))
  | signed s, .indeterminate => some (indeterminate (some s) none)
  | coefficient s n, .digit d => some (coefficient s (n.push d))
  | coefficient s n, .indeterminate => some (indeterminate s (some n))
  | indeterminate s n, .caret => some (caret s n)
  | caret s n, .sign e => some (exponentSign s n e)
  | caret s n, .digit d => some (exponent s n none (.single d))
  | exponentSign s n e, .digit d => some (exponent s n (some e) (.single d))
  | exponent s n e m, .digit d => some (exponent s n e (m.push d))
  | _, _ => none

def close? : Stage → Option WrittenTerm
  | coefficient s n => some ⟨s, .constant n⟩
  | indeterminate s n => some ⟨s, .monomial n none⟩
  | exponent s n e m => some ⟨s, .monomial n (some ⟨e, m⟩)⟩
  | _ => none

/-- What one symbol does: the terms it completes (one, if it is the sign of the next term) and
the stage after it.  There is none for a symbol that cannot stand here. -/
def step? (st : Stage) (y : Symbol) : Option (List WrittenTerm × Stage) :=
  match st.extend? y with
  | some st' => some ([], st')
  | none =>
      match st.close?, y with
      | some w, .sign s => some ([w], signed s)
      | _, _ => none

/-- The terms completed by the end of the text; there are none when it may not end here. -/
def finish? : Stage → Option (List WrittenTerm)
  | start => some []
  | st => st.close?.map ([·])

/-- What could stand at this stage.  A further digit behind a digit goes without saying. -/
def expected : Stage → List Expectation
  | start => [.polynomial]
  | signed _ => [.digits, .indeterminate]
  | coefficient _ _ => [.endOfInput, .sign, .indeterminate]
  | indeterminate _ _ => [.endOfInput, .sign, .exponent]
  | caret _ _ => [.sign, .digits]
  | exponentSign _ _ _ => [.digits]
  | exponent _ _ _ _ => [.endOfInput, .sign]

end Stage

/-! ## Reading -/

/-- The written terms of the symbols, when a term has been read up to the stage `st`. -/
def readFrom (st : Stage) : List Located → Except Refusal (List WrittenTerm)
  | [] =>
      match st.finish? with
      | some ws => .ok ws
      | none => .error (.unexpectedEnd st.expected)
  | y :: ys =>
      match st.step? y.symbol with
      | some (ws, st') => (readFrom st' ys).map (ws ++ ·)
      | none => .error (.unexpectedSymbol y.symbol y.position st.expected)

def readWritten (ys : List Located) : Except Refusal (List WrittenTerm) := readFrom .start ys

/-! ## Nothing is lost -/

/-- The symbols that the beginning of a term consists of. -/
def Stage.symbols : Stage → List Symbol
  | start => []
  | signed s => [.sign s]
  | coefficient s n => signSymbols s ++ n.symbols
  | indeterminate s n => signSymbols s ++ n.elim [] Numeral.symbols ++ [.indeterminate]
  | caret s n => signSymbols s ++ n.elim [] Numeral.symbols ++ [.indeterminate, .caret]
  | exponentSign s n e =>
      signSymbols s ++ n.elim [] Numeral.symbols ++ [.indeterminate, .caret, .sign e]
  | exponent s n e m =>
      signSymbols s ++ n.elim [] Numeral.symbols ++ [.indeterminate, .caret] ++ signSymbols e
        ++ m.symbols

theorem Stage.symbols_extend? {st st' : Stage} {y : Symbol} (h : st.extend? y = some st') :
    st'.symbols = st.symbols ++ [y] := by
  cases st <;> cases y <;> cases h <;>
    simp [Stage.symbols, signSymbols, Numeral.symbols]

theorem Stage.symbols_close? {st : Stage} {w : WrittenTerm} (h : st.close? = some w) :
    w.symbols = st.symbols := by
  cases st <;> cases h <;>
    simp [Stage.symbols, WrittenTerm.symbols, Body.symbols, Power.symbols]

/-- A step continues the term, or closes it with the sign of the next one. -/
theorem Stage.step?_eq_some {st st' : Stage} {y : Symbol} {ws : List WrittenTerm}
    (h : st.step? y = some (ws, st')) :
    (ws = [] ∧ st.extend? y = some st')
      ∨ ∃ w s, ws = [w] ∧ st.close? = some w ∧ y = .sign s ∧ st' = signed s := by
  rw [Stage.step?.eq_def] at h
  split at h
  next hext =>
    cases h
    exact .inl ⟨rfl, hext⟩
  next =>
    split at h
    next w s hclose _ =>
      cases h
      exact .inr ⟨w, s, rfl, hclose, rfl, rfl⟩
    next => cases h

/-- **A step is faithful**: the completed terms and the new beginning spell what was read before,
and the symbol. -/
theorem Stage.symbols_step? {st st' : Stage} {y : Symbol} {ws : List WrittenTerm}
    (h : st.step? y = some (ws, st')) :
    ws.flatMap WrittenTerm.symbols ++ st'.symbols = st.symbols ++ [y] := by
  rcases Stage.step?_eq_some h with ⟨rfl, hext⟩ | ⟨w, s, rfl, hclose, rfl, rfl⟩
  · simpa using Stage.symbols_extend? hext
  · rw [← Stage.symbols_close? hclose]
    simp [Stage.symbols]

/-! ## From text to terms -/

def valuesOf (ws : List WrittenTerm) : Except Refusal (List Term) := ws.mapM WrittenTerm.term

def readTerms (text : String) : Except Refusal (List Term) := do
  let ys ← locate text
  let ws ← readWritten ys
  valuesOf ws

/-- The terms of a text; the fault carries the text as it was given. -/
def termsOfText (text : String) : Except Fault (List Term) :=
  (readTerms text).mapError (Fault.malformed text)

end LaurentCalc
