import LaurentCalc.Proofs.Expression.Causes
import LaurentCalc.Proofs.Expression.RoundTrip
import LaurentCalc.Proofs.Polynomial.PartialGroup
import LaurentCalc.Session

/-!
# Reports of one line

Everything that is shown is meant to take one line: a polynomial in a listing, the sum, the report
of a fault.  Numbers and terms are made of symbols, and no symbol is a line break.  A report repeats
the text that is refused, so a line break gets into it with the text, but in no other way: a line
break is a blank, and a blank is never reported as an illegal character.

* `OneLine` — no line break in a text.
* **`Polynomial.oneLine_text`** — polynomials.
* **`oneLine_message_of_ofText`** — the report of a refused expression, if the expression is a line.
* **`Session.oneLine_message_of_sum`** — the report of a sum that does not fit.
-/

namespace LaurentCalc

/-- There is no line break in the text. -/
def OneLine (text : String) : Prop := '\n' ∉ text.toList

instance (text : String) : Decidable (OneLine text) :=
  inferInstanceAs (Decidable ('\n' ∉ text.toList))

@[simp] lemma oneLine_append (a b : String) : OneLine (a ++ b) ↔ OneLine a ∧ OneLine b := by
  simp [OneLine]

/-! ## Numbers, terms, polynomials -/

lemma Symbol.char_ne_lineBreak (y : Symbol) : y.char ≠ '\n' := by
  intro h
  have hmem := y.char_mem_alphabet
  rw [h] at hmem
  revert hmem
  decide

lemma lineBreak_not_mem_map_char (ys : List Symbol) : '\n' ∉ ys.map Symbol.char := by
  intro hmem
  obtain ⟨y, -, hy⟩ := List.mem_map.1 hmem
  exact y.char_ne_lineBreak hy

lemma Sign.char_ne_lineBreak (s : Sign) : s.char ≠ '\n' := Symbol.char_ne_lineBreak (.sign s)

lemma lineBreak_not_mem_digits (ds : List Digit) : '\n' ∉ ds.map Digit.char := by
  have hsymbols := lineBreak_not_mem_map_char (ds.map Symbol.digit)
  rwa [List.map_map] at hsymbols

lemma Decimal.oneLine_text (n : Nat) : OneLine (text n) := by
  rw [OneLine, text, String.toList_ofList]
  exact lineBreak_not_mem_digits (digits n)

lemma Term.lineBreak_not_mem_bodyChars (t : Term) : '\n' ∉ t.bodyChars :=
  lineBreak_not_mem_map_char _

lemma Term.oneLine_text (t : Term) : OneLine t.text := by
  rw [OneLine, text, String.toList_ofList, List.mem_cons, not_or]
  exact ⟨t.sign.char_ne_lineBreak.symm, t.lineBreak_not_mem_bodyChars⟩

/-- **Polynomials are shown on one line.** -/
theorem Polynomial.oneLine_text (p : Polynomial) : OneLine p.text := by
  have hleading : ∀ t, '\n' ∉ leadingChars t := by
    intro t
    rw [leadingChars]
    cases t.sign with
    | plus => exact t.lineBreak_not_mem_bodyChars
    | minus => simpa using t.lineBreak_not_mem_bodyChars
  have hfollowing : ∀ t, '\n' ∉ followingChars t := by
    intro t
    simpa [followingChars] using ⟨t.sign.char_ne_lineBreak.symm, t.lineBreak_not_mem_bodyChars⟩
  rw [OneLine, text, String.toList_ofList]
  cases p.terms with
  | nil => decide
  | cons t ts =>
      rw [chars, List.mem_append, List.mem_flatMap, not_or]
      refine ⟨hleading t, ?_⟩
      rintro ⟨u, -, hu⟩
      exact hfollowing u hu

/-! ## Reports -/

lemma Expectation.oneLine_words (x : Expectation) : OneLine x.words := by
  cases x <;> decide

lemma Refusal.oneLine_alternatives (expected : List Expectation) :
    OneLine (alternatives expected) := by
  have hor : OneLine " or " := by decide
  rw [alternatives]
  induction expected with
  | nil => decide
  | cons x expected ih =>
      cases expected with
      | nil => simpa using x.oneLine_words
      | cons y expected =>
          rw [List.map_cons, List.map_cons] at *
          rw [String.intercalate_cons_cons, oneLine_append, oneLine_append]
          exact ⟨⟨x.oneLine_words, hor⟩, ih⟩

lemma Refusal.oneLine_quote (s : Sign) (n : Numeral) : OneLine (quote s n) := by
  have hdigits : '\n' ∉ n.chars := lineBreak_not_mem_digits n.digits
  cases s with
  | plus => simpa [OneLine, quote] using hdigits
  | minus => simpa [OneLine, quote] using hdigits

/-- A refusal takes one line, unless it is a line break that is refused. -/
lemma Refusal.oneLine_message {r : Refusal} (h : ∀ p, r ≠ .illegalCharacter '\n' p) :
    OneLine r.message := by
  cases r with
  | illegalCharacter c p =>
      have hc : c ≠ '\n' := by
        rintro rfl
        exact h p rfl
      have hchar : OneLine c.toString := by simpa [OneLine, Char.toString] using hc.symm
      unfold message
      simp only [oneLine_append, hchar, Decimal.oneLine_text, and_true]
      decide +kernel
  | unexpectedSymbol y p expected =>
      have hchar : OneLine y.char.toString := by
        simpa [OneLine, Char.toString] using y.char_ne_lineBreak.symm
      unfold message
      simp only [oneLine_append, hchar, Decimal.oneLine_text, oneLine_alternatives, and_true]
      decide +kernel
  | unexpectedEnd expected =>
      unfold message
      simp only [oneLine_append, oneLine_alternatives, and_true]
      decide +kernel
  | outOfRange s n =>
      unfold message
      simp only [oneLine_append, oneLine_quote, true_and]
      decide +kernel

/-- Blanks are never reported as illegal characters. -/
lemma isBlank_of_illegalCharacter {text : String} {c : Char} {p : Nat}
    (h : readTerms text = .error (.illegalCharacter c p)) : isBlank c = false := by
  by_cases hlegal : ∃ c' ∈ text.toList, ¬ (isBlank c' ∨ c' ∈ "x+-^0123456789".toList)
  · obtain ⟨before, c', after, htext, hbefore, hc'⟩ := exists_first hlegal
    rw [readTerms_of_illegal htext hbefore hc'] at h
    cases h
    exact Bool.eq_false_iff.2 fun hblank => hc' (.inl hblank)
  · have hlegal : ∀ c' ∈ nonBlank text, c' ∈ "x+-^0123456789".toList := by
      intro c' hc'
      obtain ⟨hmem, hblank⟩ := List.mem_filter.1 hc'
      by_contra hillegal
      exact hlegal ⟨c', hmem, not_or_intro (by simpa using hblank) hillegal⟩
    -- without an illegal character the text gets to the later looks, which refuse for other reasons
    exfalso
    by_cases hgrammar : ∃ ws, Writes (nonBlank text) ws
    · obtain ⟨ws, hws⟩ := hgrammar
      have hfails := failsAt_readTerms hws
      rw [h] at hfails
      cases hmisfit : misfit? (ws.flatMap WrittenTerm.integers) with
      | none => simp [hmisfit, FailsAt] at hfails
      | some i => simp [hmisfit, FailsAt] at hfails
    · obtain ⟨r, hr, hread⟩ := readTerms_of_ungrammatical hlegal hgrammar
      rw [h] at hread
      cases hread
      exact hr

/-- An overflow is reported on one line. -/
lemma oneLine_message_coefficientOverflow (a b : Term) :
    OneLine (Fault.coefficientOverflow a b).message := by
  unfold Fault.message
  simp only [oneLine_append, Term.oneLine_text, and_true]
  decide +kernel

lemma Polynomial.oneLine_message_of_ofTerms {ts : List Term} {fault : Fault}
    (h : ofTerms ts = .error fault) : OneLine fault.message := by
  obtain ⟨e, -, a, b, -, -, rfl⟩ :=
    (canonicalForm_eq_error_iff ts fault).1 ((ofTerms_eq_error_iff ts fault).1 h)
  exact oneLine_message_coefficientOverflow a b

/-- **A refused expression is reported on one line**, if it takes no more itself. -/
theorem oneLine_message_of_ofText {text : String} (htext : OneLine text) {fault : Fault}
    (h : Polynomial.ofText text = .error fault) : OneLine fault.message := by
  rw [Polynomial.ofText, termsOfText] at h
  cases hread : readTerms text with
  | ok ts =>
      rw [hread] at h
      exact Polynomial.oneLine_message_of_ofTerms h
  | error r =>
      rw [hread] at h
      cases h
      have hrefusal : OneLine r.message := by
        refine Refusal.oneLine_message fun p hr => ?_
        have hblank := isBlank_of_illegalCharacter (hr ▸ hread)
        revert hblank
        decide
      unfold Fault.message
      simp only [oneLine_append, htext, hrefusal, and_true]
      decide +kernel

/-- **A sum that does not fit is reported on one line.** -/
theorem Session.oneLine_message_of_sum {s : Session} {fault : Fault} (h : s.sum = .error fault) :
    OneLine fault.message := by
  obtain ⟨a, b, rfl⟩ := Polynomial.exists_of_foldlM_add_eq_error h
  exact oneLine_message_coefficientOverflow a b

end LaurentCalc
