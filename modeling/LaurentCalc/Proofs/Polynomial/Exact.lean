import LaurentCalc.Polynomial.Evaluation
import LaurentCalc.Proofs.CanonicalForm.ExactSum
import Mathlib.Data.Finsupp.Basic

/-!
# Polynomials without a bound

A polynomial of the calculator stands for a function that gives a coefficient at every exponent
and is zero at all but finitely many.  As a function it has unbounded integers for coefficients,
and addition is total.  This file says how the two relate, so that a statement about polynomials
can be turned into one about such functions, where nothing can overflow.

* `ExactPolynomial` — the functions.
* `ExactPolynomial.ofTerms` — what a list of terms means.
* `ExactPolynomial.Fitting` — every coefficient fits in 64 bits.
* **`Polynomial.ofTerms_eq_ok_iff_exact`** — making a polynomial keeps the meaning of the terms.
* **`Polynomial.exists_exact_iff`**, `Polynomial.exact_injective` — polynomials are the functions
  that fit, no more and no fewer.
-/

namespace LaurentCalc

/-! ## Exact polynomials -/

/-- A coefficient at every exponent, zero at all but finitely many. -/
abbrev ExactPolynomial := Int64 →₀ ℤ

namespace ExactPolynomial

/-- Every coefficient fits in 64 bits. -/
def Fitting (m : ExactPolynomial) : Prop := ∀ e, Fits (m e)

/-- Only the coefficients that are not zero have to be looked at. -/
lemma fitting_iff_support (m : ExactPolynomial) : m.Fitting ↔ ∀ e ∈ m.support, Fits (m e) := by
  constructor
  · exact fun h e _ => h e
  · intro h e
    by_cases he : e ∈ m.support
    · exact h e he
    · rw [Finsupp.notMem_support_iff.1 he]
      decide

instance : DecidablePred Fitting := fun m =>
  @decidable_of_iff _ _ m.fitting_iff_support.symm Finset.decidableDforallFinset

/-- What a list of terms means: the sum of its terms. -/
noncomputable def ofTerms (ts : List Term) : ExactPolynomial :=
  (ts.map fun t => Finsupp.single t.exponent t.coefficient.toInt).sum

lemma ofTerms_append (ts us : List Term) : ofTerms (ts ++ us) = ofTerms ts + ofTerms us := by
  simp [ofTerms]

lemma ofTerms_apply (ts : List Term) (e : Int64) : ofTerms ts e = exactSum ts e := by
  induction ts with
  | nil => rfl
  | cons t ts ih =>
      rw [exactSum_cons, ← ih, ← Finsupp.single_apply]
      simp [ofTerms]

/-- The terms of an exact polynomial that fits, in no particular order. -/
noncomputable def terms (m : ExactPolynomial) : List Term :=
  m.support.toList.map fun e => ⟨Int64.ofInt (m e), e⟩

lemma ofTerms_terms {m : ExactPolynomial} (h : m.Fitting) : ofTerms m.terms = m := by
  have hvalue : ∀ e, (Int64.ofInt (m e)).toInt = m e := fun e => (h e).toInt_ofInt
  have hsum : ofTerms m.terms = (m.support.toList.map fun e => Finsupp.single e (m e)).sum := by
    simp only [ofTerms, terms, List.map_map, Function.comp_def, hvalue]
  rw [hsum, Finset.sum_map_toList]
  exact Finsupp.sum_single m

end ExactPolynomial

/-! ## The meaning of a polynomial -/

namespace Polynomial

/-- The function that a polynomial stands for. -/
noncomputable def exact (p : Polynomial) : ExactPolynomial := .ofTerms p.terms

/-- At the exponent of a term there is only that term. -/
lemma exact_of_mem {p : Polynomial} {t : Term} (ht : t ∈ p.terms) :
    p.exact t.exponent = t.coefficient.toInt := by
  rw [exact, ExactPolynomial.ofTerms_apply]
  exact exactSum_of_mem p.canonical.pairwise ht

/-- **The meaning can be read off**: it is the coefficient at each exponent. -/
theorem exact_apply (p : Polynomial) (e : Int64) : p.exact e = (p.coefficient e).toInt := by
  rw [coefficient]
  cases hfind : p.terms.find? (fun t => t.exponent = e) with
  | none =>
      have hnone : ∀ t ∈ p.terms, t.exponent ≠ e := by simpa using hfind
      rw [exact, ExactPolynomial.ofTerms_apply]
      exact exactSum_eq_zero hnone
  | some t =>
      have he : t.exponent = e := by simpa using List.find?_some hfind
      rw [← he]
      exact exact_of_mem (List.mem_of_find?_eq_some hfind)

/-- There is a coefficient exactly where there is a term. -/
lemma exact_ne_zero_iff (p : Polynomial) (e : Int64) :
    p.exact e ≠ 0 ↔ ∃ t ∈ p.terms, t.exponent = e := by
  rw [exact, ExactPolynomial.ofTerms_apply, p.canonical.exists_mem_iff]

lemma fitting_exact (p : Polynomial) : p.exact.Fitting := by
  intro e
  rw [exact_apply]
  exact fits_toInt _

lemma exact_zero : zero.exact = 0 := rfl

/-- Polynomials that mean the same are equal. -/
lemma exact_injective : Function.Injective exact := by
  intro p q h
  have hterms : p.terms = q.terms := by
    refine p.canonical.eq_of_exactSum q.canonical fun e => ?_
    rw [← ExactPolynomial.ofTerms_apply, ← ExactPolynomial.ofTerms_apply]
    exact DFunLike.congr_fun h e
  cases p
  cases q
  simpa using hterms

lemma ofTerms_eq_ok_iff (ts : List Term) (p : Polynomial) :
    ofTerms ts = .ok p ↔ canonicalForm ts = .ok p.terms := by
  rw [← map_terms_ofTerms]
  cases ofTerms ts with
  | error fault => simp [Except.map]
  | ok q =>
      cases p
      cases q
      simp [Except.map]

/-- **Making a polynomial keeps the meaning**, and that is all it does: the result is the one
polynomial that means what the terms mean. -/
theorem ofTerms_eq_ok_iff_exact (ts : List Term) (p : Polynomial) :
    ofTerms ts = .ok p ↔ p.exact = .ofTerms ts := by
  rw [ofTerms_eq_ok_iff, canonicalForm_eq_ok_iff]
  constructor
  · rintro ⟨-, hsum⟩
    ext e
    rw [exact, ExactPolynomial.ofTerms_apply, ExactPolynomial.ofTerms_apply, hsum]
  · intro h
    refine ⟨p.canonical, fun e => ?_⟩
    rw [← ExactPolynomial.ofTerms_apply, ← ExactPolynomial.ofTerms_apply, ← h, exact]

/-- A polynomial is made again of its own terms. -/
lemma ofTerms_self (p : Polynomial) : ofTerms p.terms = .ok p :=
  (ofTerms_eq_ok_iff_exact p.terms p).2 rfl

lemma exists_ofTerms_iff (ts : List Term) :
    (∃ p, ofTerms ts = .ok p) ↔ (ExactPolynomial.ofTerms ts).Fitting := by
  have hcanonical : (∃ p, ofTerms ts = .ok p) ↔ ∃ r, canonicalForm ts = .ok r := by
    simp only [ofTerms_eq_ok_iff]
    constructor
    · rintro ⟨p, hp⟩
      exact ⟨p.terms, hp⟩
    · rintro ⟨r, hr⟩
      exact ⟨⟨r, canonical_of_canonicalForm hr⟩, hr⟩
  rw [hcanonical, exists_canonicalForm_iff]
  simp only [ExactPolynomial.Fitting, ExactPolynomial.ofTerms_apply]

/-- **Every function that fits is the meaning of a polynomial.** -/
theorem exists_exact_iff (m : ExactPolynomial) : (∃ p : Polynomial, p.exact = m) ↔ m.Fitting := by
  constructor
  · rintro ⟨p, rfl⟩
    exact p.fitting_exact
  · intro h
    have hmeaning := ExactPolynomial.ofTerms_terms h
    obtain ⟨p, hp⟩ := (exists_ofTerms_iff m.terms).2 (hmeaning.symm ▸ h)
    exact ⟨p, ((ofTerms_eq_ok_iff_exact _ p).1 hp).trans hmeaning⟩

end Polynomial

end LaurentCalc
