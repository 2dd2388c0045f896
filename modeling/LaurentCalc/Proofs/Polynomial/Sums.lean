import LaurentCalc.Proofs.Polynomial.Identity
import LaurentCalc.Proofs.Polynomial.PartialGroup
import LaurentCalc.Session

/-!
# Sums of many polynomials

A list of polynomials is summed from the left, and every sum on the way is a polynomial again.  So
it is not enough that the whole sum fits: a coefficient that leaves the range with one summand is
lost, even if the next one would bring it back.  This is where a sum differs from a canonical form,
in which all terms of an exponent are summed before anyone looks at the range.

What is formed on the way are the sums of the first polynomials of the list, and they say everything
about the result.  The first of them that does not fit is where the sum is refused, and the report
names what there was so far and what was to be added, at the highest exponent that does not fit.
Another order has other sums on its way, so it may be refused where this one is not; but where both
succeed they have come to the same exact sum.

* `coefficientSum` — the exact sum of the coefficients at an exponent.
* `PrefixFits` — the sum of the first polynomials of a list is within the range.
* **`sum_eq_ok_iff`** — a sum succeeds if all of these are, and then it is exact.
* **`sum_eq_error_iff`** — otherwise it is refused at the first that is not.
* **`sum_prefixes`** — both, for the entries of a session too, and for any other order.
-/

namespace LaurentCalc

/-! ## Sums on the way -/

namespace ExactPolynomial

/-- The sums on the way are those of the first summands, one more each time. -/
lemma mem_runningSums_iff {m n : ExactPolynomial} {ms : List ExactPolynomial} :
    n ∈ runningSums m ms ↔ ∃ k < ms.length, n = m + (ms.take (k + 1)).sum := by
  induction ms generalizing m with
  | nil => simp [runningSums]
  | cons a ms ih =>
      rw [runningSums, List.mem_cons, ih]
      constructor
      · rintro (rfl | ⟨k, hk, rfl⟩)
        · exact ⟨0, by simp, by simp⟩
        · exact ⟨k + 1, by simpa using hk, by simp [add_assoc]⟩
      · rintro ⟨_ | k, hk, rfl⟩
        · exact .inl (by simp)
        · exact .inr ⟨k, by simpa using hk, by simp [add_assoc]⟩

lemma getLastD_runningSums (m : ExactPolynomial) (ms : List ExactPolynomial) :
    (runningSums m ms).getLastD m = m + ms.sum := by
  induction ms generalizing m with
  | nil => simp [runningSums]
  | cons a ms ih => rw [runningSums, List.getLastD_cons, ih, List.sum_cons, add_assoc]

end ExactPolynomial

namespace Polynomial

/-- The sum of the coefficients at the exponent `e`, without any bound. -/
def coefficientSum (ps : List Polynomial) (e : Int64) : ℤ :=
  (ps.map fun p => (p.coefficient e).toInt).sum

lemma sum_map_exact_apply (ps : List Polynomial) (e : Int64) :
    (ps.map exact).sum e = coefficientSum ps e := by
  induction ps with
  | nil => rfl
  | cons p ps ih =>
      rw [List.map_cons, List.sum_cons, Finsupp.add_apply, ih, exact_apply]
      simp [coefficientSum]

lemma coefficientSum_append_singleton (ps : List Polynomial) (p : Polynomial) (e : Int64) :
    coefficientSum (ps ++ [p]) e = coefficientSum ps e + (p.coefficient e).toInt := by
  simp [coefficientSum]

lemma coefficientSum_perm {ps qs : List Polynomial} (h : ps.Perm qs) (e : Int64) :
    coefficientSum ps e = coefficientSum qs e :=
  (h.map _).sum_eq

/-- All coefficients of the exact sum of the first `k` polynomials fit. -/
def PrefixFits (ps : List Polynomial) (k : ℕ) : Prop :=
  ∀ e, Fits (coefficientSum (ps.take k) e)

lemma prefixFits_zero (ps : List Polynomial) : PrefixFits ps 0 := by
  intro e
  show Fits 0
  decide

/-- Polynomials behind the first `k` make no difference. -/
lemma prefixFits_append_left {ps : List Polynomial} {k : ℕ} (hk : k ≤ ps.length)
    (qs : List Polynomial) : PrefixFits (ps ++ qs) k ↔ PrefixFits ps k := by
  rw [PrefixFits, PrefixFits, List.take_append_of_le_length hk]

/-! ## Success -/

lemma forall_runningSums_fitting_iff (ps : List Polynomial) :
    (∀ m ∈ ExactPolynomial.runningSums zero.exact (ps.map exact), m.Fitting)
      ↔ ∀ k ≤ ps.length, PrefixFits ps k := by
  have hfitting : ∀ k, (zero.exact + ((ps.map exact).take k).sum).Fitting ↔ PrefixFits ps k := by
    intro k
    rw [exact_zero, zero_add, ← List.map_take]
    simp only [ExactPolynomial.Fitting, sum_map_exact_apply, PrefixFits]
  simp only [ExactPolynomial.mem_runningSums_iff, List.length_map]
  constructor
  · rintro h (_ | k) hk
    · exact prefixFits_zero ps
    · exact (hfitting (k + 1)).1 (h _ ⟨k, hk, rfl⟩)
  · rintro h _ ⟨k, hk, rfl⟩
    exact (hfitting (k + 1)).2 (h (k + 1) hk)

/-- **A sum succeeds** if every sum on the way fits, and then nothing is lost. -/
theorem sum_eq_ok_iff (ps : List Polynomial) (r : Polynomial) :
    sum ps = .ok r
      ↔ (∀ k ≤ ps.length, PrefixFits ps k)
        ∧ ∀ e, (r.coefficient e).toInt = coefficientSum ps e := by
  rw [sum, foldlM_add_eq_ok_iff, forall_runningSums_fitting_iff,
    ExactPolynomial.getLastD_runningSums, exact_zero, zero_add, Finsupp.ext_iff]
  simp only [exact_apply, sum_map_exact_apply]

lemma exists_sum_iff (ps : List Polynomial) :
    (∃ r, sum ps = .ok r) ↔ ∀ k ≤ ps.length, PrefixFits ps k := by
  simp only [sum_eq_ok_iff, exists_and_left, and_iff_left_iff_imp]
  intro hfits
  have hfitting : (ps.map exact).sum.Fitting := by
    intro e
    have hall := hfits ps.length le_rfl e
    rwa [List.take_length, ← sum_map_exact_apply] at hall
  obtain ⟨r, hr⟩ := (exists_exact_iff _).2 hfitting
  exact ⟨r, fun e => by rw [← exact_apply, hr, sum_map_exact_apply]⟩

/-- Where two orders both succeed, they come to the same polynomial. -/
lemma eq_of_sum_perm {ps qs : List Polynomial} (h : ps.Perm qs) {r s : Polynomial}
    (hr : sum ps = .ok r) (hs : sum qs = .ok s) : r = s := by
  refine (r.eq_iff_coefficient s).2 fun e => Int64.toInt_inj.1 ?_
  rw [((sum_eq_ok_iff ps r).1 hr).2, ((sum_eq_ok_iff qs s).1 hs).2, coefficientSum_perm h]

/-! ## Refusal -/

/-- The terms that meet where an addition overflows are those of the two coefficients there. -/
lemma add_eq_error_iff_coefficient (p q : Polynomial) (fault : Fault) :
    p.add q = .error fault
      ↔ ∃ e, HighestMisfit (p.exact + q.exact) e
        ∧ fault = .coefficientOverflow ⟨p.coefficient e, e⟩ ⟨q.coefficient e, e⟩ := by
  have hterm : ∀ {p : Polynomial} {t : Term} {e : Int64}, t ∈ p.terms → t.exponent = e →
      t = ⟨p.coefficient e, e⟩ := by
    rintro p t e ht rfl
    rw [coefficient_of_mem ht]
  rw [add_eq_error_iff]
  constructor
  · rintro ⟨t, ht, u, hu, he, hmisfit, rfl⟩
    exact ⟨t.exponent, hmisfit, by rw [← hterm ht rfl, ← hterm hu he]⟩
  · rintro ⟨e, hmisfit, rfl⟩
    obtain ⟨t, ht, u, hu, hte, hue⟩ := exists_terms_of_misfit hmisfit.1
    refine ⟨t, ht, u, hu, hue.trans hte.symm, hte.symm ▸ hmisfit, ?_⟩
    rw [← hterm ht hte, ← hterm hu hue]

/-- The polynomial so far stands for the exact sum, also when the next one is added. -/
lemma coefficientSum_concat {ps : List Polynomial} {r : Polynomial} (hr : sum ps = .ok r)
    (p : Polynomial) : coefficientSum (ps ++ [p]) = r.exact + p.exact := by
  funext e
  rw [coefficientSum_append_singleton, ← ((sum_eq_ok_iff ps r).1 hr).2, Pi.add_apply, exact_apply,
    exact_apply]

/-- **A sum is refused** at the first polynomial with which it does not fit.  The report is that of
the highest exponent at which it does not, and names the coefficient so far and the one to come. -/
theorem sum_eq_error_iff (ps : List Polynomial) (fault : Fault) :
    sum ps = .error fault
      ↔ ∃ k p e c, ps[k]? = some p ∧ (∀ j ≤ k, PrefixFits ps j)
        ∧ HighestMisfit (coefficientSum (ps.take (k + 1))) e
        ∧ c.toInt = coefficientSum (ps.take k) e
        ∧ fault = .coefficientOverflow ⟨c, e⟩ ⟨p.coefficient e, e⟩ := by
  rw [sum, foldlM_eq_error_iff]
  simp only [add_eq_error_iff_coefficient]
  constructor
  case mp =>
    rintro ⟨before, p, after, r, rfl, hr, e, hmisfit, rfl⟩
    obtain ⟨hfits, hexact⟩ := (sum_eq_ok_iff before r).1 hr
    refine ⟨before.length, p, e, r.coefficient e, by simp, fun j hj => ?_, ?_, ?_, rfl⟩
    · exact (prefixFits_append_left hj _).2 (hfits j hj)
    · rw [List.take_length_add_append]
      exact coefficientSum_concat hr p ▸ hmisfit
    · rw [hexact, List.take_left]
  case mpr =>
    rintro ⟨k, p, e, c, hp, hfits, hmisfit, hc, rfl⟩
    obtain ⟨hk, rfl⟩ := List.getElem?_eq_some_iff.1 hp
    have hlength : (ps.take k).length = k := List.length_take_of_le hk.le
    have hsplit : ps = ps.take k ++ ps[k] :: ps.drop (k + 1) := by
      rw [List.getElem_cons_drop, List.take_append_drop]
    -- the polynomials in front of the next one have a sum, because nothing overflowed so far
    obtain ⟨r, hr⟩ := (exists_sum_iff (ps.take k)).2 fun j hj => by
      rw [← prefixFits_append_left hj, List.take_append_drop]
      exact hfits j (hlength ▸ hj)
    have hcr : c = r.coefficient e := by
      rw [← Int64.toInt_inj, hc, ((sum_eq_ok_iff _ r).1 hr).2]
    refine ⟨ps.take k, ps[k], ps.drop (k + 1), r, hsplit, hr, e, ?_, by rw [hcr]⟩
    rw [← coefficientSum_concat hr, List.take_concat_get']
    exact hmisfit

/-! ## Both -/

/-- **Sums of many polynomials.**  A sum succeeds exactly if the sum of the first `k` polynomials
fits at every exponent, whatever `k` is; then the result is canonical, and its coefficients are the
exact sums.  Otherwise it is refused at the first `k` for which this fails.  The report is that of
the highest exponent at which it does, and names the exact sum of the coefficients before and the
coefficient of the polynomial that was to be added.  Two orders of the same polynomials that both
succeed have one sum. -/
theorem sum_prefixes (ps : List Polynomial) :
    ((∃ r, sum ps = .ok r) ↔ ∀ k ≤ ps.length, PrefixFits ps k)
    ∧ (∀ r, sum ps = .ok r →
      Canonical r.terms ∧ ∀ e, (r.coefficient e).toInt = coefficientSum ps e)
    ∧ (∀ fault, sum ps = .error fault
      ↔ ∃ k p e c, ps[k]? = some p ∧ (∀ j ≤ k, PrefixFits ps j)
        ∧ HighestMisfit (coefficientSum (ps.take (k + 1))) e
        ∧ c.toInt = coefficientSum (ps.take k) e
        ∧ fault = .coefficientOverflow ⟨c, e⟩ ⟨p.coefficient e, e⟩)
    ∧ Session.sum ⟨ps⟩ = sum ps
    ∧ ∀ qs, ps.Perm qs → ∀ r s, sum ps = .ok r → sum qs = .ok s → r = s :=
  ⟨exists_sum_iff ps, fun r hr => ⟨r.canonical, ((sum_eq_ok_iff ps r).1 hr).2⟩,
    sum_eq_error_iff ps, rfl, fun _ h _ _ => eq_of_sum_perm h⟩

/-- Two polynomials that overflow at two exponents, and a third one that makes up for it if it comes
in between. -/
theorem sum_prefixes_order :
    let p : Polynomial :=
      ⟨[⟨9223372036854775807, 3⟩, ⟨9223372036854775807, 1⟩, ⟨5, 0⟩], by decide⟩
    let q : Polynomial := ⟨[⟨2, 3⟩, ⟨1, 1⟩], by decide⟩
    let r : Polynomial := ⟨[⟨-2, 3⟩, ⟨-1, 1⟩], by decide⟩
    let fault := Fault.coefficientOverflow ⟨9223372036854775807, 3⟩ ⟨2, 3⟩
    (sum [p, q, r] = .error fault ∧ (¬ ∀ k ≤ 3, PrefixFits [p, q, r] k)
        ∧ ∃ k, (∀ j ≤ k, PrefixFits [p, q, r] j)
          ∧ HighestMisfit (coefficientSum ([p, q, r].take (k + 1))) 3)
      ∧ (sum [p, r, q] = .ok p ∧ (∀ k ≤ 3, PrefixFits [p, r, q] k)
        ∧ ∀ e, (p.coefficient e).toInt = coefficientSum [p, r, q] e)
      ∧ (Session.sum ⟨[p, r, q]⟩ = .ok p ∧ ∀ s, sum [r, q, p] = .ok s → p = s) := by
  intro p q r fault
  have hpqr : sum [p, q, r] = .error fault := by decide +kernel
  have hprq : sum [p, r, q] = .ok p := by decide +kernel
  obtain ⟨hfits, hvalue, -, hsession, horder⟩ := sum_prefixes [p, r, q]
  refine ⟨⟨hpqr, fun hall => ?_, ?_⟩, ⟨hprq, hfits.1 ⟨p, hprq⟩, (hvalue p hprq).2⟩,
    hsession.trans hprq, fun s hs => horder [r, q, p] ?_ p s hprq hs⟩
  · obtain ⟨s, hs⟩ := (sum_prefixes [p, q, r]).1.2 hall
    rw [hpqr] at hs
    cases hs
  · obtain ⟨k, s, e, c, -, hbefore, hmisfit, -, hfault⟩ :=
      ((sum_prefixes [p, q, r]).2.2.1 fault).1 hpqr
    obtain rfl : 3 = e := by
      simp only [fault, Fault.coefficientOverflow.injEq, Term.mk.injEq] at hfault
      exact hfault.1.2
    exact ⟨k, hbefore, hmisfit⟩
  · decide +kernel

end Polynomial

end LaurentCalc
