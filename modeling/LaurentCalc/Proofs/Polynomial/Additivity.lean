import LaurentCalc.Proofs.Polynomial.Outcomes

/-!
# The value of a sum

Of two polynomials that have a value at `x`, the sum should have the sum of the values, and as exact
integers it has.  But the three evaluations go over three lists of terms.  In the list of the sum
the terms of the two polynomials are merged or cancelled, and those of one stand between those of
the other; so there are other numbers on the way, and one of them may leave the range even where the
two values, and their sum, do not.  That is all that can happen.  In particular a power that is no
integer cannot come up in the sum, since every exponent in it comes from one of the two polynomials,
where it did no harm.

* `weightedSum_add` — the exact values add up.
* `exists_mem_of_ofTerms` — making a polynomial makes no new exponents.
* `evaluate_ne_nonIntegral` — where all powers are integers, none is reported.
* **`Polynomial.evaluate_add`** — the value of a sum, or else an overflow.
-/

namespace LaurentCalc.Polynomial

variable {p q s : Polynomial} {x : Int64}

lemma weightedSum_add (h : p.add q = .ok s) (f : Int64 → ℤ) :
    weightedSum f s.terms = weightedSum f p.terms + weightedSum f q.terms := by
  have hmeaning : ExactPolynomial.ofTerms s.terms = .ofTerms (p.terms ++ q.terms) :=
    (ofTerms_eq_ok_iff_exact _ s).1 h
  rw [weightedSum_congr f hmeaning, weightedSum_append]

/-! ## Exponents -/

/-- Every exponent of a polynomial is one of the terms that it was made of. -/
lemma exists_mem_of_ofTerms {ts : List Term} (h : ofTerms ts = .ok p) {t : Term}
    (ht : t ∈ p.terms) : ∃ u ∈ ts, u.exponent = t.exponent := by
  have hne : exactSum p.terms t.exponent ≠ 0 := (p.canonical.exists_mem_iff _).1 ⟨t, ht, rfl⟩
  rw [exactSum_canonicalForm ((ofTerms_eq_ok_iff ts p).1 h)] at hne
  by_contra hnone
  push Not at hnone
  exact hne (exactSum_eq_zero hnone)

/-- The powers that a sum needs are among those that its parts need. -/
lemma hasPower_of_add (h : p.add q = .ok s) (hp : ∀ t ∈ p.terms, HasPower x t.exponent)
    (hq : ∀ t ∈ q.terms, HasPower x t.exponent) : ∀ t ∈ s.terms, HasPower x t.exponent := by
  intro t ht
  obtain ⟨u, hu, he⟩ := exists_mem_of_ofTerms h ht
  rw [← he]
  rcases List.mem_append.1 hu with hu | hu
  · exact hp u hu
  · exact hq u hu

lemma evaluate_ne_nonIntegral (h : ∀ t ∈ p.terms, HasPower x t.exponent) (y e : Int64) :
    p.evaluate x ≠ .error (.nonIntegral y e) := by
  rw [Ne, evaluate_eq_nonIntegral_iff]
  rintro ⟨-, hunit, hnegative, ⟨t, ht, rfl⟩, -, -⟩
  rcases h t ht with he | hx
  · exact absurd he (Int64.not_le.2 hnegative)
  · exact not_or.2 hunit hx

/-! ## Values -/

/-- **The value of a sum** of two polynomials that have a value at `x` is the exact sum of the two
values.  If there is none, it is because a number on the way left the range, which is bound to
happen if the sum of the values does not fit; no power is refused for not being an integer. -/
theorem evaluate_add {v w : Int64} (hs : p.add q = .ok s) (hv : p.evaluate x = .ok v)
    (hw : q.evaluate x = .ok w) :
    ((∃ u, s.evaluate x = .ok u ∧ u.toInt = v.toInt + w.toInt)
      ∨ s.evaluate x = .error (.evaluationOverflow x))
    ∧ (∀ y e, s.evaluate x ≠ .error (.nonIntegral y e))
    ∧ (¬ Fits (v.toInt + w.toInt) → s.evaluate x = .error (.evaluationOverflow x)) := by
  have hvalue : ∀ u, s.evaluate x = .ok u → u.toInt = v.toInt + w.toInt := by
    intro u hu
    rw [((s.evaluate_eq_ok_iff x u).1 hu).2, ((p.evaluate_eq_ok_iff x v).1 hv).2,
      ((q.evaluate_eq_ok_iff x w).1 hw).2, weightedSum_add hs]
  have hpower : ∀ y e, s.evaluate x ≠ .error (.nonIntegral y e) :=
    evaluate_ne_nonIntegral
      (hasPower_of_add hs (hasPower_of_evaluate hv) (hasPower_of_evaluate hw))
  have hcases : (∃ u, s.evaluate x = .ok u ∧ u.toInt = v.toInt + w.toInt)
      ∨ s.evaluate x = .error (.evaluationOverflow x) := by
    cases hu : s.evaluate x with
    | ok u => exact .inl ⟨u, rfl, hvalue u hu⟩
    | error fault =>
        rcases eq_of_evaluate_eq_error hu with rfl | ⟨e, rfl⟩
        · exact .inr rfl
        · exact absurd hu (hpower x e)
  refine ⟨hcases, hpower, fun hunfit => hcases.resolve_left ?_⟩
  rintro ⟨u, -, hu⟩
  exact hunfit (hu ▸ fits_toInt u)

/-- Terms with negative exponents that merge, at `-1`; values at the limit of the range; and two
values of zero whose terms overflow when they are taken together. -/
theorem evaluate_add_overshoot :
    let p : Polynomial := ⟨[⟨3, 1⟩, ⟨-1, -2⟩], by decide⟩
    let q : Polynomial := ⟨[⟨4, 2⟩, ⟨5, 1⟩, ⟨2, -2⟩], by decide⟩
    let pq : Polynomial := ⟨[⟨4, 2⟩, ⟨8, 1⟩, ⟨1, -2⟩], by decide⟩
    let a : Polynomial := ⟨[⟨9223372036854775807, 2⟩], by decide⟩
    let b : Polynomial := ⟨[⟨1, 1⟩], by decide⟩
    let ab : Polynomial := ⟨[⟨9223372036854775807, 2⟩, ⟨1, 1⟩], by decide⟩
    let c : Polynomial := ⟨[⟨9223372036854775807, 2⟩, ⟨-9223372036854775807, 1⟩], by decide⟩
    let d : Polynomial := ⟨[⟨1, 3⟩, ⟨-1, 0⟩], by decide⟩
    let cd : Polynomial :=
      ⟨[⟨1, 3⟩, ⟨9223372036854775807, 2⟩, ⟨-9223372036854775807, 1⟩, ⟨-1, 0⟩], by decide⟩
    (p.add q = .ok pq ∧ p.evaluate (-1) = .ok (-4) ∧ q.evaluate (-1) = .ok 1
        ∧ ∃ u, pq.evaluate (-1) = .ok u ∧ u.toInt = -4 + 1)
      ∧ (a.add b = .ok ab ∧ a.evaluate 1 = .ok 9223372036854775807 ∧ b.evaluate 1 = .ok 1
        ∧ ab.evaluate 1 = .error (.evaluationOverflow 1))
      ∧ (c.add d = .ok cd ∧ c.evaluate 1 = .ok 0 ∧ d.evaluate 1 = .ok 0
        ∧ cd.evaluate 1 = .error (.evaluationOverflow 1)
        ∧ ∀ y e, cd.evaluate 1 ≠ .error (.nonIntegral y e)) := by
  intro p q pq a b ab c d cd
  have hpq : p.add q = .ok pq := by decide +kernel
  have hp : p.evaluate (-1) = .ok (-4) := by decide +kernel
  have hq : q.evaluate (-1) = .ok 1 := by decide +kernel
  have hab : a.add b = .ok ab := by decide +kernel
  have ha : a.evaluate 1 = .ok 9223372036854775807 := by decide +kernel
  have hb : b.evaluate 1 = .ok 1 := by decide +kernel
  have hcd : c.add d = .ok cd := by decide +kernel
  have hc : c.evaluate 1 = .ok 0 := by decide +kernel
  have hd : d.evaluate 1 = .ok 0 := by decide +kernel
  refine ⟨⟨hpq, hp, hq, (evaluate_add hpq hp hq).1.resolve_right (by decide +kernel)⟩,
    ⟨hab, ha, hb, (evaluate_add hab ha hb).2.2 (by decide)⟩,
    hcd, hc, hd, (evaluate_add hcd hc hd).1.resolve_left ?_, (evaluate_add hcd hc hd).2.1⟩
  rintro ⟨u, hu, -⟩
  have hfault : cd.evaluate 1 = .error (.evaluationOverflow 1) := by decide +kernel
  rw [hu] at hfault
  cases hfault

end LaurentCalc.Polynomial
