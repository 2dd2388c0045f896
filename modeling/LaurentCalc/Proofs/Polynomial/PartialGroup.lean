import LaurentCalc.Proofs.CanonicalForm.Overflow
import LaurentCalc.Proofs.Polynomial.Arithmetic

/-!
# Addition as a partial group operation

Adding polynomials obeys the laws of a commutative group, except that a sum need not exist.  So
every law has to say when its two sides are there, and the law itself is then one of the exact
polynomials behind (`Polynomial.add_eq_ok_iff`), where it is known.

Where a sum does not exist there is something to say, too: the overflow of two polynomials is
reported by the two terms that meet at its exponent, one of either.  Swapping the polynomials
swaps the terms and changes nothing else, because the exponent depends on the sums alone.

* **`Polynomial.add_eq_error_iff`** — the report of an addition.
* `Polynomial.add_ok_comm`, `add_error_comm`, `add_ok_assoc`, … — the laws one by one.
* **`Polynomial.add_partial_group`** — all of them.
-/

namespace LaurentCalc.Polynomial

/-! ## The report of an addition -/

lemma ofTerms_eq_error_iff (ts : List Term) (fault : Fault) :
    ofTerms ts = .error fault ↔ canonicalForm ts = .error fault := by
  rw [← map_terms_ofTerms]
  cases ofTerms ts <;> simp [Except.map]

/-- A sum that does not fit has two parts, since either would fit alone. -/
lemma exists_terms_of_misfit {p q : Polynomial} {e : Int64} (h : ¬ Fits ((p.exact + q.exact) e)) :
    ∃ t ∈ p.terms, ∃ u ∈ q.terms, t.exponent = e ∧ u.exponent = e := by
  rw [Finsupp.add_apply] at h
  have hp : p.exact e ≠ 0 := by
    intro hzero
    rw [hzero, zero_add] at h
    exact h (q.fitting_exact e)
  have hq : q.exact e ≠ 0 := by
    intro hzero
    rw [hzero, add_zero] at h
    exact h (p.fitting_exact e)
  obtain ⟨t, ht, hte⟩ := (p.exact_ne_zero_iff e).1 hp
  obtain ⟨u, hu, hue⟩ := (q.exact_ne_zero_iff e).1 hq
  exact ⟨t, ht, u, hu, hte, hue⟩

lemma likeTerms_append_of_mem {p q : Polynomial} {t u : Term} (ht : t ∈ p.terms)
    (hu : u ∈ q.terms) (he : u.exponent = t.exponent) :
    likeTerms (p.terms ++ q.terms) t.exponent = [t, u] := by
  rw [likeTerms_append, p.canonical.likeTerms_of_mem ht, ← he, q.canonical.likeTerms_of_mem hu]
  rfl

/-- **The report of an addition** is the pair of terms that meet at the highest exponent whose sum
does not fit. -/
theorem add_eq_error_iff (p q : Polynomial) (fault : Fault) :
    p.add q = .error fault
      ↔ ∃ t ∈ p.terms, ∃ u ∈ q.terms, u.exponent = t.exponent
        ∧ HighestMisfit (p.exact + q.exact) t.exponent ∧ fault = .coefficientOverflow t u := by
  have hsum : exactSum (p.terms ++ q.terms) = p.exact + q.exact := by
    funext e
    rw [← ExactPolynomial.ofTerms_apply, ExactPolynomial.ofTerms_append]
    rfl
  rw [add, ofTerms_eq_error_iff, canonicalForm_eq_error_iff, hsum]
  constructor
  · rintro ⟨e, hmisfit, a, b, ha, hb, rfl⟩
    obtain ⟨t, ht, u, hu, rfl, he⟩ := exists_terms_of_misfit hmisfit.1
    rw [likeTerms_append_of_mem ht hu he] at ha hb
    obtain rfl : t = a := by simpa using ha
    obtain rfl : u = b := by simpa using hb
    exact ⟨t, ht, u, hu, he, hmisfit, rfl⟩
  · rintro ⟨t, ht, u, hu, he, hmisfit, rfl⟩
    refine ⟨t.exponent, hmisfit, t, u, ?_, ?_, rfl⟩ <;>
      rw [likeTerms_append_of_mem ht hu he] <;> rfl

/-- A sum is refused where one of its additions is, and so for two terms that do not fit. -/
lemma exists_of_foldlM_add_eq_error {p : Polynomial} {ps : List Polynomial} {fault : Fault}
    (h : ps.foldlM add p = .error fault) : ∃ a b, fault = .coefficientOverflow a b := by
  obtain ⟨-, q, -, r, -, -, hadd⟩ := foldlM_eq_error_iff.1 h
  obtain ⟨a, -, b, -, -, -, rfl⟩ := (add_eq_error_iff r q fault).1 hadd
  exact ⟨a, b, rfl⟩

/-! ## The laws -/

variable {p q r s t v w : Polynomial}

lemma add_ok_comm : p.add q = .ok s ↔ q.add p = .ok s := by
  rw [add_eq_ok_iff, add_eq_ok_iff, add_comm]

lemma add_error_comm {a b : Term} :
    p.add q = .error (.coefficientOverflow a b) ↔ q.add p = .error (.coefficientOverflow b a) := by
  have hswap : ∀ {p q : Polynomial} {a b : Term}, p.add q = .error (.coefficientOverflow a b) →
      q.add p = .error (.coefficientOverflow b a) := by
    intro p q a b h
    obtain ⟨t, ht, u, hu, he, hmisfit, hfault⟩ := (add_eq_error_iff p q _).1 h
    cases hfault
    refine (add_eq_error_iff q p _).2 ⟨b, hu, a, ht, he.symm, ?_, rfl⟩
    rw [he, add_comm]
    exact hmisfit
  exact ⟨hswap, hswap⟩

/-- As long as the sums in the middle exist, the one of all three exists on both ways or on
neither. -/
lemma add_ok_assoc (hs : p.add q = .ok s) (ht : q.add r = .ok t) :
    s.add r = .ok v ↔ p.add t = .ok v := by
  rw [add_eq_ok_iff] at hs ht ⊢
  rw [add_eq_ok_iff, hs, ht, add_assoc]

lemma add_ok_right_comm (hs : p.add q = .ok s) (hv : s.add r = .ok v) (ht : p.add r = .ok t)
    (hw : t.add q = .ok w) : v = w := by
  rw [add_eq_ok_iff] at hs hv ht hw
  refine exact_injective ?_
  rw [hv, hs, hw, ht, add_right_comm]

lemma zero_add_ok (p : Polynomial) : zero.add p = .ok p := by
  rw [add_eq_ok_iff, exact_zero, zero_add]

lemma add_zero_ok (p : Polynomial) : p.add zero = .ok p := add_ok_comm.1 p.zero_add_ok

lemma add_ok_cancel (hq : p.add q = .ok s) (hr : p.add r = .ok s) : q = r := by
  rw [add_eq_ok_iff] at hq hr
  exact exact_injective (add_left_cancel (hq.symm.trans hr))

/-- **A partial group.**  Two polynomials have one sum in both orders, or else are refused in
both, for the same two terms in the order of the polynomials.  A sum of three does not depend on
the brackets or on the order, as far as the sums of two in it exist.  Zero is neutral, and what
was added can be told from the sum. -/
theorem add_partial_group (p q r : Polynomial) :
    ((∃ s, p.add q = .ok s ∧ q.add p = .ok s)
      ∨ ∃ a b, p.add q = .error (.coefficientOverflow a b)
        ∧ q.add p = .error (.coefficientOverflow b a))
    ∧ (∀ s t, p.add q = .ok s → q.add r = .ok t →
        ∀ v, s.add r = .ok v ↔ p.add t = .ok v)
    ∧ (∀ s v t w, p.add q = .ok s → s.add r = .ok v → p.add r = .ok t → t.add q = .ok w →
        v = w)
    ∧ (zero.add p = .ok p ∧ p.add zero = .ok p)
    ∧ (∀ s, p.add q = .ok s → p.add r = .ok s → q = r) := by
  refine ⟨?_, fun s t hs ht v => add_ok_assoc hs ht,
    fun s v t w hs hv ht hw => add_ok_right_comm hs hv ht hw, ⟨p.zero_add_ok, p.add_zero_ok⟩,
    fun s hq hr => add_ok_cancel hq hr⟩
  cases hsum : p.add q with
  | ok s => exact .inl ⟨s, rfl, add_ok_comm.1 hsum⟩
  | error fault =>
      obtain ⟨a, -, b, -, -, -, rfl⟩ := (add_eq_error_iff p q fault).1 hsum
      exact .inr ⟨a, b, rfl, add_error_comm.1 hsum⟩

/-- Of three polynomials at the limit, the first and the last have no sum, but each has one with
the polynomial between them. -/
theorem add_partial_group_limits :
    let p : Polynomial := ⟨[⟨9223372036854775807, 1⟩], by decide⟩
    let q : Polynomial := ⟨[⟨-1, 1⟩, ⟨1, 0⟩], by decide⟩
    let r : Polynomial := ⟨[⟨1, 1⟩], by decide⟩
    let s : Polynomial := ⟨[⟨9223372036854775806, 1⟩, ⟨1, 0⟩], by decide⟩
    let t : Polynomial := ⟨[⟨1, 0⟩], by decide⟩
    let v : Polynomial := ⟨[⟨9223372036854775807, 1⟩, ⟨1, 0⟩], by decide⟩
    (∃ a b, p.add r = .error (.coefficientOverflow a b)
        ∧ r.add p = .error (.coefficientOverflow b a))
      ∧ p.add q = .ok s ∧ q.add r = .ok t ∧ s.add r = .ok v ∧ p.add t = .ok v
      ∧ (∀ w, t.add p = .ok w → v = w)
      ∧ ∀ q', p.add q' = .ok s → q = q' := by
  intro p q r s t v
  have hpr : p.add r = .error (.coefficientOverflow ⟨9223372036854775807, 1⟩ ⟨1, 1⟩) := rfl
  have hpq : p.add q = .ok s := rfl
  have hqp : q.add p = .ok s := rfl
  have hqr : q.add r = .ok t := rfl
  have hpt : p.add t = .ok v := rfl
  have hsr : s.add r = .ok v := ((add_partial_group p q r).2.1 s t hpq hqr v).2 hpt
  refine ⟨(add_partial_group p r zero).1.resolve_left ?_, hpq, hqr, hsr, hpt, ?_, ?_⟩
  · rintro ⟨w, hw, -⟩
    rw [hpr] at hw
    cases hw
  · exact fun w hw => (add_partial_group q p r).2.2.1 s v t w hqp hsr hqr hw
  · exact fun q' hq' => (add_partial_group p q q').2.2.2.2 s hpq hq'

end LaurentCalc.Polynomial
