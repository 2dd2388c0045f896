import LaurentCalc.Proofs.Polynomial.PartialGroup
import LaurentCalc.Proofs.Polynomial.TextAddition
import LaurentCalc.Term.Addition

/-!
# Adding the negation

The terms of a polynomial can be negated one by one, and they make a polynomial again: no exponent
changes, and no coefficient becomes zero.  There are two ways to negate a term, though.  The least
coefficient has no opposite in 64 bits; `Term.opposite` refuses it, and `Term.negate` leaves it as
it is.  What was left as it is does not cancel when the negation is added: it is doubled, and twice
the least integer does not fit.  So it goes unnoticed until then, and both terms of the overflow
that comes of it are the one that could not be negated.

* `Term.opposite_eq_ok_iff` — the two ways agree, except for the least coefficient.
* `Polynomial.negate_eq_ok_iff_terms` — the negation has the negated terms.
* `Polynomial.fits_add_negation_iff` — at which exponents the two can be added.
* **`Polynomial.negate_cancels`** — negating twice, and adding the negation.
-/

namespace LaurentCalc

/-! ## Terms -/

lemma toInt_eq_least_iff {c : Int64} : c.toInt = -0x8000000000000000 ↔ c = Int64.minValue :=
  Int64.toInt_inj (y := Int64.minValue)

namespace Term

lemma negate_negate (t : Term) : t.negate.negate = t := by
  rw [negate, negate, Int64.neg_neg]

lemma isZero_negate (t : Term) : t.negate.IsZero ↔ t.IsZero :=
  Int64.neg_inj (b := 0)

/-- A term with the least coefficient is left as it is. -/
lemma negate_of_least {t : Term} (h : t.coefficient = Int64.minValue) : t.negate = t := by
  cases t
  cases h
  rfl

/-- **The two ways to negate agree**, except for the least coefficient. -/
lemma opposite_eq_ok_iff {t u : Term} :
    t.opposite = .ok u ↔ t.coefficient ≠ Int64.minValue ∧ u = t.negate := by
  rw [opposite, Ne, ← toInt_eq_least_iff]
  by_cases hleast : t.coefficient.toInt = -0x8000000000000000
  · have hnone : int64? (-t.coefficient.toInt) = none := by
      rw [hleast]
      rfl
    simp only [hnone]
    simp [hleast]
  · have hsome : int64? (-t.coefficient.toInt) = some (-t.coefficient) := by
      rw [int64?_eq_some_iff, toInt_neg, ExactPolynomial.opposite, if_neg hleast]
    simp [hsome, hleast, negate, eq_comm]

end Term

/-! ## Polynomials -/

/-- A canonical list stays canonical when its terms are negated. -/
lemma Canonical.map_negate {ts : List Term} (h : Canonical ts) :
    Canonical (ts.map Term.negate) := by
  refine ⟨fun t ht => ?_, List.pairwise_map.2 h.pairwise⟩
  obtain ⟨u, hu, rfl⟩ := List.mem_map.1 ht
  exact mt u.isZero_negate.1 (h.nonzero u hu)

namespace Polynomial

variable {p n : Polynomial}

/-- The negation has the negated terms; there is nothing to merge or to sort. -/
lemma negate_eq_ok_iff_terms : p.negate = .ok n ↔ n.terms = p.terms.map Term.negate := by
  rw [negate, ofTerms_eq_ok_iff, (canonicalForm_self_iff _).2 p.canonical.map_negate,
    Except.ok.injEq, eq_comm]

lemma exists_negate (p : Polynomial) : ∃ n, p.negate = .ok n :=
  ⟨⟨_, p.canonical.map_negate⟩, negate_eq_ok_iff_terms.2 rfl⟩

lemma negate_negate (h : p.negate = .ok n) : n.negate = .ok p := by
  rw [negate_eq_ok_iff_terms] at h ⊢
  rw [h, List.map_map, List.map_congr_left fun t _ => t.negate_negate, List.map_id']

/-- The least coefficient is doubled; every other one cancels. -/
lemma add_negation_apply (h : p.negate = .ok n) (e : Int64) :
    p.exact e + n.exact e
      = if p.exact e = -0x8000000000000000 then -0x10000000000000000 else 0 := by
  rw [(negate_eq_ok_iff p n).1 h, ExactPolynomial.negate, Finsupp.mapRange_apply,
    ExactPolynomial.opposite]
  split <;> omega

/-- A polynomial and its negation can be added where the coefficient is not the least one. -/
lemma fits_add_negation_iff (h : p.negate = .ok n) (e : Int64) :
    Fits (p.exact e + n.exact e) ↔ p.exact e ≠ -0x8000000000000000 := by
  rw [add_negation_apply h]
  split
  next hleast => exact iff_of_false (by decide) (not_not_intro hleast)
  next hleast => exact iff_of_true (by decide) hleast

/-- The least coefficient shows in the meaning, since no other term has its exponent. -/
lemma exact_eq_least_iff (p : Polynomial) (e : Int64) :
    p.exact e = -0x8000000000000000
      ↔ ∃ t ∈ p.terms, t.exponent = e ∧ t.coefficient = Int64.minValue := by
  constructor
  · intro h
    have hne : p.exact e ≠ 0 := by
      rw [h]
      decide
    obtain ⟨t, ht, rfl⟩ := (p.exact_ne_zero_iff e).1 hne
    rw [exact_of_mem ht, toInt_eq_least_iff] at h
    exact ⟨t, ht, rfl, h⟩
  · rintro ⟨t, ht, rfl, h⟩
    rw [exact_of_mem ht, toInt_eq_least_iff, h]

/-- Without the least coefficient everything cancels. -/
lemma add_negation_eq_zero (h : p.negate = .ok n)
    (hleast : ∀ t ∈ p.terms, t.coefficient ≠ Int64.minValue) : p.add n = .ok zero := by
  rw [add_eq_ok_iff, exact_zero]
  ext e
  rw [Finsupp.add_apply, add_negation_apply h, if_neg]
  · rfl
  · rw [exact_eq_least_iff]
    rintro ⟨t, ht, -, htleast⟩
    exact hleast t ht htleast

/-- With it there is an overflow, and the highest term with this coefficient meets itself. -/
lemma add_negation_eq_error (h : p.negate = .ok n)
    (hleast : ∃ t ∈ p.terms, t.coefficient = Int64.minValue) :
    ∃ t ∈ p.terms, t.coefficient = Int64.minValue
      ∧ (∀ u ∈ p.terms, u.coefficient = Int64.minValue → u.exponent ≤ t.exponent)
      ∧ p.add n = .error (.coefficientOverflow t t) := by
  cases hadd : p.add n with
  | ok r =>
      obtain ⟨t, ht, htleast⟩ := hleast
      have hfits : Fits (p.exact t.exponent + n.exact t.exponent) := by
        rw [← Finsupp.add_apply, ← (add_eq_ok_iff p n r).1 hadd]
        exact r.fitting_exact _
      rw [fits_add_negation_iff h, Ne, exact_eq_least_iff] at hfits
      exact absurd ⟨t, ht, rfl, htleast⟩ hfits
  | error fault =>
      obtain ⟨t, ht, u, hu, he, ⟨hunfit, habove⟩, rfl⟩ := (add_eq_error_iff p n fault).1 hadd
      have htleast : t.coefficient = Int64.minValue := by
        have hexact : p.exact t.exponent = -0x8000000000000000 :=
          not_not.1 (mt (fits_add_negation_iff h t.exponent).2 hunfit)
        rw [← toInt_eq_least_iff, ← exact_of_mem ht, hexact]
      -- `t` is its own negation, so it is also the term of the negation that it meets
      have htn : t ∈ n.terms := by
        rw [negate_eq_ok_iff_terms.1 h, ← Term.negate_of_least htleast]
        exact List.mem_map_of_mem ht
      refine ⟨t, ht, htleast, fun v hv hvleast => Int64.not_lt.1 fun hlt => ?_, ?_⟩
      · exact (fits_add_negation_iff h _).1 (habove _ hlt)
          ((exact_eq_least_iff p _).2 ⟨v, hv, rfl, hvleast⟩)
      · rw [n.canonical.eq_of_exponent htn hu he]

/-- **Adding the negation.**  The negated terms of a polynomial always make a polynomial, with the
same exponents, and negating that gives the first one back.  If all terms have an opposite, that is,
if none of them has the least coefficient, its terms are the opposite ones, and the two add up to
zero.  Otherwise they cannot be added: both terms of the overflow are the highest term that has the
least coefficient, and the polynomial that was to be added to stays. -/
theorem negate_cancels (p : Polynomial) :
    ∃ n, p.negate = .ok n ∧ Canonical n.terms
      ∧ n.terms.map Term.exponent = p.terms.map Term.exponent
      ∧ n.negate = .ok p
      ∧ (∀ t : Term, (∃ u, t.opposite = .ok u) ↔ t.coefficient ≠ Int64.minValue)
      ∧ ((∀ t ∈ p.terms, ∃ u, t.opposite = .ok u) →
        p.terms.map Term.opposite = n.terms.map .ok ∧ p.add n = .ok zero)
      ∧ ((¬ ∀ t ∈ p.terms, ∃ u, t.opposite = .ok u) →
        ∃ t ∈ p.terms, t.coefficient = Int64.minValue
          ∧ (∀ u ∈ p.terms, u.coefficient = Int64.minValue → u.exponent ≤ t.exponent)
          ∧ p.add n = .error (.coefficientOverflow t t)
          ∧ ∀ (rs : Registers) i j, rs[i]? = some p → rs[j]? = some n →
            rs.perform (.add i j) = (rs, .error (.calculation (.coefficientOverflow t t)))) := by
  obtain ⟨n, hn⟩ := p.exists_negate
  have hterms := negate_eq_ok_iff_terms.1 hn
  have hopposite : ∀ t : Term, (∃ u, t.opposite = .ok u) ↔ t.coefficient ≠ Int64.minValue := by
    intro t
    simp [Term.opposite_eq_ok_iff]
  refine ⟨n, hn, n.canonical, ?_, negate_negate hn, hopposite, fun hall => ?_, fun hsome => ?_⟩
  · rw [hterms, List.map_map]
    rfl
  · simp only [hopposite] at hall
    refine ⟨?_, add_negation_eq_zero hn hall⟩
    rw [hterms, List.map_map]
    exact List.map_congr_left fun t ht => Term.opposite_eq_ok_iff.2 ⟨hall t ht, rfl⟩
  · simp only [hopposite] at hsome
    push Not at hsome
    obtain ⟨t, ht, hleast, hhighest, hadd⟩ := add_negation_eq_error hn hsome
    refine ⟨t, ht, hleast, hhighest, hadd, fun rs i j hi hj => ?_⟩
    refine Registers.perform_of_error_result ?_
    rw [Registers.result_add hi hj, hadd]
    rfl

/-- The least coefficient at two exponents, of which the higher one is reported; and a polynomial
without it that goes to the limit. -/
theorem negate_cancels_least :
    let least : Term := ⟨-9223372036854775808, 2⟩
    let p : Polynomial := ⟨[⟨3, 5⟩, least, ⟨1, 0⟩, ⟨-9223372036854775808, -1⟩], by decide⟩
    let n : Polynomial := ⟨[⟨-3, 5⟩, least, ⟨-1, 0⟩, ⟨-9223372036854775808, -1⟩], by decide⟩
    let fault := Fault.coefficientOverflow least least
    let q : Polynomial := ⟨[⟨9223372036854775807, 1⟩, ⟨-9223372036854775807, 0⟩], by decide⟩
    (p.negate = .ok n ∧ n.negate = .ok p ∧ p.add n = .error fault
        ∧ Registers.perform [p, n] (.add 0 1) = ([p, n], .error (.calculation fault)))
      ∧ ∃ m, q.negate = .ok m ∧ q.terms.map Term.opposite = m.terms.map .ok
        ∧ q.add m = .ok zero := by
  intro least p n fault q
  have hn : p.negate = .ok n := by decide +kernel
  have hfault : p.add n = .error fault := by decide +kernel
  obtain ⟨n', hn', -, -, hback, hopposite, -, herror⟩ := negate_cancels p
  obtain rfl : n = n' := Except.ok.inj (hn.symm.trans hn')
  constructor
  · have hsome : ¬ ∀ t ∈ p.terms, ∃ u, t.opposite = .ok u :=
      fun hall => (hopposite least).1 (hall least (by decide)) rfl
    obtain ⟨t, -, -, -, hadd, hregisters⟩ := herror hsome
    obtain ⟨rfl, -⟩ := Fault.coefficientOverflow.inj (Except.error.inj (hfault.symm.trans hadd))
    exact ⟨hn, hback, hfault, hregisters [p, n] 0 1 rfl rfl⟩
  · obtain ⟨m, hm, -, -, -, -, hcancels, -⟩ := negate_cancels q
    have hnone : ∀ t ∈ q.terms, t.coefficient ≠ Int64.minValue := by decide
    exact ⟨m, hm, hcancels fun t ht => (hopposite t).2 (hnone t ht)⟩

end Polynomial

end LaurentCalc
