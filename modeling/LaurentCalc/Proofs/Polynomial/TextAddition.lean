import LaurentCalc.Polynomial.Registers
import LaurentCalc.Proofs.Polynomial.Arithmetic

/-!
# Adding an expression

There are two ways to add an expression to a polynomial.  `addText` brings the terms of both to
canonical form together; or one makes a polynomial of the expression first, and adds that.  The
second way has one more place to fail: the terms of the expression may overflow on their own and
still fit in the sum.  Apart from this the two agree, because a part of a list may be replaced by
its canonical form without changing what the list means.

* **`Polynomial.ofTerms_append_terms`** — a canonical form in place of a part.
* `Polynomial.addText_eq_ok_iff_add`, `exists_addText_iff`, `zero_addText` — the cases.
* **`Polynomial.addText_agrees`** — all of them, with what becomes of the registers.
-/

namespace LaurentCalc

/-! ## Parts of a list -/

namespace Polynomial

variable {p q : Polynomial} {text : String} {ts : List Term}

/-- **A part may be replaced by its canonical form.** -/
theorem ofTerms_append_terms (us : List Term) (h : ofTerms ts = .ok q) (r : Polynomial) :
    ofTerms (us ++ q.terms) = .ok r ↔ ofTerms (us ++ ts) = .ok r := by
  have hq : ExactPolynomial.ofTerms q.terms = .ofTerms ts := (ofTerms_eq_ok_iff_exact ts q).1 h
  rw [ofTerms_eq_ok_iff_exact, ofTerms_eq_ok_iff_exact, ExactPolynomial.ofTerms_append,
    ExactPolynomial.ofTerms_append, hq]

/-! ## Expressions -/

lemma addText_of_terms (p : Polynomial) (h : termsOfText text = .ok ts) :
    p.addText text = ofTerms (p.terms ++ ts) := by
  rw [addText, h]
  rfl

lemma ofText_of_error {fault : Fault} (h : termsOfText text = .error fault) :
    ofText text = .error fault := by
  rw [ofText, h]
  rfl

lemma addText_of_error (p : Polynomial) {fault : Fault} (h : termsOfText text = .error fault) :
    p.addText text = .error fault := by
  rw [addText, h]
  rfl

/-- The two ways agree on an expression that has a polynomial. -/
lemma addText_eq_ok_iff_add (h : ofText text = .ok q) (r : Polynomial) :
    p.addText text = .ok r ↔ p.add q = .ok r := by
  obtain ⟨ts, hts, hq⟩ := bind_eq_ok_iff.1 h
  rw [p.addText_of_terms hts, add, ofTerms_append_terms p.terms hq]

/-- Only the sums of all terms have to fit. -/
lemma exists_addText_iff (p : Polynomial) (h : termsOfText text = .ok ts) :
    (∃ r, p.addText text = .ok r)
      ↔ ∀ e, Fits ((p.coefficient e).toInt + exactSum ts e) := by
  have hsum : ∀ e, ExactPolynomial.ofTerms (p.terms ++ ts) e
      = (p.coefficient e).toInt + exactSum ts e := by
    intro e
    rw [ExactPolynomial.ofTerms_append, Finsupp.add_apply, ExactPolynomial.ofTerms_apply ts,
      ← exact_apply]
    rfl
  simp only [p.addText_of_terms h, exists_ofTerms_iff, ExactPolynomial.Fitting, hsum]

lemma zero_addText (text : String) : zero.addText text = ofText text := rfl

lemma termsOfText_empty : termsOfText "" = .ok [] := rfl

/-- The empty expression adds nothing. -/
lemma addText_empty (p : Polynomial) : p.addText "" = .ok p := by
  rw [p.addText_of_terms termsOfText_empty, List.append_nil, ofTerms_self]

lemma sumOfTexts_empty_right (text : String) : sumOfTexts text "" = ofText text := by
  rw [sumOfTexts, zero_addText]
  cases ofText text with
  | error fault => rfl
  | ok p => exact p.addText_empty

lemma sumOfTexts_empty_left (text : String) : sumOfTexts "" text = ofText text := by
  rw [sumOfTexts, addText_empty]
  rfl

end Polynomial

/-! ## Registers -/

namespace Registers

variable {rs : Registers} {i j : ℕ} {p q : Polynomial} {text : String}

lemma perform_of_error_result {step : RegisterStep} {fault : Fault}
    (h : step.result rs = .error (.calculation fault)) :
    rs.perform step = (rs, .error (.calculation fault)) := by
  rw [perform, h]

lemma result_addText (hp : rs[i]? = some p) (text : String) :
    (RegisterStep.addText i text).result rs = (p.addText text).mapError .calculation := by
  have hread : rs.read i = .ok p := by rw [read, hp]
  rw [RegisterStep.result, hread]
  rfl

lemma result_add (hp : rs[i]? = some p) (hq : rs[j]? = some q) :
    (RegisterStep.add i j).result rs = (p.add q).mapError .calculation := by
  have hreadp : rs.read i = .ok p := by rw [read, hp]
  have hreadq : rs.read j = .ok q := by rw [read, hq]
  rw [RegisterStep.result, hreadp, hreadq]
  rfl

/-- Two steps that replace one register leave the same registers if they succeed alike. -/
lemma registers_congr {step step' : RegisterStep} (htarget : step.target? = step'.target?)
    (h : ∀ r, step.result rs = .ok r ↔ step'.result rs = .ok r) :
    (rs.perform step).1 = (rs.perform step').1 := by
  rw [perform, perform, htarget]
  cases hr : step.result rs with
  | ok r => rw [(h r).1 hr]
  | error fault =>
      cases hr' : step'.result rs with
      | error fault' => rfl
      | ok r =>
          rw [(h r).2 hr'] at hr
          cases hr

end Registers

/-! ## Both ways side by side -/

/-- **Adding an expression is adding its polynomial**, if it has one: the two ways succeed together
and leave the same registers.  If it cannot be read, adding it is refused for that reason, and the
registers stay as they were.  If it can be read, it can be added exactly if the sums of all terms
fit, be there a polynomial of it or not.  And adding it to zero, alone or with the empty
expression before or behind it, makes its polynomial, or fails as that does. -/
theorem Polynomial.addText_agrees (p : Polynomial) (text : String) :
    (∀ q, ofText text = .ok q →
      (∀ r, p.addText text = .ok r ↔ p.add q = .ok r)
        ∧ ∀ (rs : Registers) i j, rs[i]? = some p → rs[j]? = some q →
          (rs.perform (.addText i text)).1 = (rs.perform (.add i j)).1)
    ∧ (∀ fault, termsOfText text = .error fault →
      p.addText text = .error fault ∧ ofText text = .error fault
        ∧ ∀ (rs : Registers) i, rs[i]? = some p →
          rs.perform (.addText i text) = (rs, .error (.calculation fault)))
    ∧ (∀ ts, termsOfText text = .ok ts →
      ((∃ r, p.addText text = .ok r) ↔ ∀ e, Fits ((p.coefficient e).toInt + exactSum ts e)))
    ∧ zero.addText text = ofText text
    ∧ sumOfTexts text "" = ofText text
    ∧ sumOfTexts "" text = ofText text := by
  refine ⟨fun q hq => ⟨addText_eq_ok_iff_add hq, fun rs i j hp hj => ?_⟩, fun fault h => ?_,
    fun ts hts => p.exists_addText_iff hts, zero_addText text, sumOfTexts_empty_right text,
    sumOfTexts_empty_left text⟩
  · refine Registers.registers_congr rfl fun r => ?_
    rw [Registers.result_addText hp, Registers.result_add hp hj, mapError_eq_ok_iff,
      mapError_eq_ok_iff, addText_eq_ok_iff_add hq]
  · refine ⟨p.addText_of_error h, ofText_of_error h, fun rs i hp => ?_⟩
    refine Registers.perform_of_error_result ?_
    rw [Registers.result_addText hp, p.addText_of_error h]
    rfl

/-- An expression that overflows on its own is added all the same, one that is none is not, and
one of a single term is added in both ways. -/
theorem Polynomial.addText_agrees_overshoot :
    let p : Polynomial := ⟨[⟨-1, 1⟩, ⟨2, 0⟩], by decide⟩
    let q : Polynomial := ⟨[⟨1, 1⟩], by decide⟩
    let large := "9223372036854775807x + x"
    let fault := Fault.malformed "x$" (.illegalCharacter '$' 2)
    (ofText large = .error (.coefficientOverflow ⟨9223372036854775807, 1⟩ ⟨1, 1⟩)
        ∧ ∃ r, p.addText large = .ok r)
      ∧ (termsOfText "x$" = .error fault ∧ ofText "x$" = .error fault
        ∧ Registers.perform [p] (.addText 0 "x$") = ([p], .error (.calculation fault)))
      ∧ (ofText "x" = .ok q ∧ p.add q = p.addText "x"
        ∧ (Registers.perform [q, p] (.addText 1 "x")).1
          = (Registers.perform [q, p] (.add 1 0)).1) := by
  intro p q large fault
  have hlarge : termsOfText large = .ok [⟨9223372036854775807, 1⟩, ⟨1, 1⟩] := by decide +kernel
  have hfault : termsOfText "x$" = .error fault := by decide +kernel
  have hq : ofText "x" = .ok q := by decide +kernel
  have hadd : p.add q = .ok ⟨[⟨2, 0⟩], by decide⟩ := by decide +kernel
  refine ⟨⟨by decide +kernel, ?_⟩, ⟨hfault, ?_⟩, hq, ?_, ?_⟩
  · refine ((addText_agrees p large).2.2.1 _ hlarge).2 fun e => ?_
    by_cases he : e = 1
    · subst he
      decide
    · have hsum : exactSum [⟨9223372036854775807, 1⟩, ⟨1, 1⟩] e = 0 :=
        exactSum_eq_zero (by simp [Ne.symm he])
      rw [hsum, add_zero]
      exact fits_toInt _
  · have h := (addText_agrees p "x$").2.1 fault hfault
    exact ⟨h.2.1, h.2.2 [p] 0 rfl⟩
  · rw [hadd]
    exact (((addText_agrees p "x").1 q hq).1 _ |>.2 hadd).symm
  · exact ((addText_agrees p "x").1 q hq).2 [q, p] 1 0 rfl rfl

end LaurentCalc
