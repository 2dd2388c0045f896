import LaurentCalc.Expression.Refusal
import LaurentCalc.Text

/-!
# Located symbols

The first look at a text drops its blanks and turns every other character into a symbol.  Each
symbol keeps the position of its character, because a refusal further on must point into the text
as it was given.

* `Located` — a symbol and its position.
* `locate` — the located symbols of a text, or its first illegal character.
* **`map_symbol_locate`** — the symbols depend only on the characters that are not blank; the
  positions are all that blanks can change.
-/

namespace LaurentCalc

/-- A symbol with the position of its character in the text, counted from one. -/
structure Located where
  symbol : Symbol
  position : Nat
deriving DecidableEq, Repr

/-- The symbols of the characters that start at position `p`. -/
def locateFrom (p : Nat) : List Char → Except Refusal (List Located)
  | [] => .ok []
  | c :: cs =>
      if isBlank c then locateFrom (p + 1) cs
      else match Symbol.ofChar? c with
        | none => .error (.illegalCharacter c p)
        | some y => (locateFrom (p + 1) cs).map (⟨y, p⟩ :: ·)

def locate (text : String) : Except Refusal (List Located) := locateFrom 1 text.toList

/-- Forgetting the positions leaves the symbols of the characters that are not blank. -/
theorem map_symbol_locateFrom (p : Nat) (cs : List Char) :
    (locateFrom p cs).toOption.map (·.map Located.symbol)
      = (cs.filter fun c => !isBlank c).mapM Symbol.ofChar? := by
  induction cs generalizing p with
  | nil => rfl
  | cons c cs ih =>
    by_cases hb : isBlank c = true
    · rw [locateFrom, if_pos hb, ih, List.filter_cons_of_neg (by simp [hb])]
    · rw [locateFrom, if_neg hb, List.filter_cons_of_pos (by simp [hb]), List.mapM_cons,
        ← ih (p + 1)]
      cases Symbol.ofChar? c with
      | none => rfl
      | some y => cases locateFrom (p + 1) cs <;> rfl

/-- **Blanks do not matter** to the symbols of a text. -/
theorem map_symbol_locate (text : String) :
    (locate text).toOption.map (·.map Located.symbol)
      = (text.toList.filter fun c => !isBlank c).mapM Symbol.ofChar? :=
  map_symbol_locateFrom 1 text.toList

end LaurentCalc
