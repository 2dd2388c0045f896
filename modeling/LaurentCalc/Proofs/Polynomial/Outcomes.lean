import LaurentCalc.Proofs.Polynomial.Value

/-!
# The outcomes of an evaluation

An evaluation goes over the terms from the highest exponent down and makes three checks at each of
them: on the power, on the product, and on the sum so far.  The first check that fails says how the
evaluation ends.  Because a negative exponent has no integer power unless `x` is `1` or `-1`, and
because the exponents are in order, this can be told without going through the terms: a power that
is no integer is reported exactly if all terms in front of the negative exponents pass, and then for
the highest of these.

* `Polynomial.NonIntegralAt` — where a power that is no integer comes up.
* `nonIntegralAt_iff` — it is the term behind those that pass; here the order of the terms is used.
* **`evaluate_eq_nonIntegral_iff`** — it is reported exactly if it comes up.
* **`evaluate_outcomes`** — the three outcomes, each with its condition.
-/

namespace LaurentCalc

/-! ## One term -/

lemma addValue_of_not_hasPower {x : Int64} {t : Term} (h : ¬ HasPower x t.exponent) (v : Int64) :
    addValue x v t = .error (.nonIntegral x t.exponent) := by
  rw [addValue, power_of_not_hasPower h]
  rfl

lemma eq_of_addValue_eq_error {x v : Int64} {t : Term} {fault : Fault}
    (hpower : HasPower x t.exponent) (h : addValue x v t = .error fault) :
    fault = .evaluationOverflow x := by
  cases hvalue : power x t.exponent with
  | error fault' =>
      simp only [addValue, hvalue, bind, Except.bind] at h
      cases h
      exact eq_of_power_eq_error hpower hvalue
  | ok w =>
      cases hsum : (mul? t.coefficient w).bind (add? v) with
      | some v' =>
          simp only [addValue, hvalue, bind, Except.bind, hsum] at h
          cases h
      | none =>
          simp only [addValue, hvalue, bind, Except.bind, hsum] at h
          exact (Except.error.inj h).symm

/-! ## Powers that are no integers -/

namespace Polynomial

/-- The evaluation gets to the exponent `e`, whose power is no integer: `x` is not `1` or `-1`, the
exponent is the highest one below zero, and all checks pass at the exponents from zero on. -/
structure NonIntegralAt (p : Polynomial) (x e : Int64) : Prop where
  not_unit : x ≠ 1 ∧ x ≠ -1
  negative : e < 0
  occurs : ∃ t ∈ p.terms, t.exponent = e
  highest : ∀ t ∈ p.terms, t.exponent < 0 → t.exponent ≤ e
  passes : ∀ i, ∀ t ∈ p.terms[i]?, 0 ≤ t.exponent → Passes x p.terms i

/-- The terms in front of it are those with exponents from zero on. -/
lemma nonIntegralAt_iff (p : Polynomial) (x e : Int64) :
    p.NonIntegralAt x e
      ↔ ∃ before t after, p.terms = before ++ t :: after ∧ t.exponent = e
        ∧ (∀ i, Passes x before i) ∧ ¬ HasPower x e := by
  constructor
  case mp =>
    rintro ⟨hunit, hnegative, ⟨t, ht, rfl⟩, hhighest, hpasses⟩
    obtain ⟨before, after, hterms⟩ := List.append_of_mem ht
    obtain ⟨hbefore, -⟩ := (hterms ▸ p.canonical : Canonical (before ++ t :: after)).around
    have hpower : ¬ HasPower x t.exponent := by
      simp [HasPower, hunit, Int64.not_le.2 hnegative]
    refine ⟨before, t, after, hterms, rfl, fun i => ?_, hpower⟩
    by_cases hi : i < before.length
    · rw [← passes_append_left hi (t :: after), ← hterms]
      have hmem : before[i] ∈ p.terms := hterms ▸ List.mem_append_left _ (List.getElem_mem hi)
      refine hpasses i before[i] ?_ ?_
      · rw [hterms, List.getElem?_append_left hi, List.getElem?_eq_getElem hi, Option.mem_some]
      · -- a negative exponent in front of `t` would be higher
        by_contra hneg
        have hle : before[i].exponent ≤ t.exponent := hhighest _ hmem (Int64.not_le.1 hneg)
        exact Int64.not_le.2 (hbefore _ (List.getElem_mem hi)) hle
    · simp [Passes, hi]
  case mpr =>
    rintro ⟨before, t, after, hterms, rfl, hpasses, hpower⟩
    obtain ⟨hnegative, hunit⟩ : ¬ 0 ≤ t.exponent ∧ ¬ (x = 1 ∨ x = -1) := not_or.1 hpower
    obtain ⟨-, hafter⟩ := (hterms ▸ p.canonical : Canonical (before ++ t :: after)).around
    have hnonneg : ∀ u ∈ before, 0 ≤ u.exponent := by
      intro u hu
      obtain ⟨i, hi⟩ := List.mem_iff_getElem?.1 hu
      exact (hpasses i u hi).1.resolve_right hunit
    have hle : ∀ u ∈ t :: after, u.exponent ≤ t.exponent :=
      List.forall_mem_cons.2 ⟨Int64.le_refl _, fun u hu => Int64.le_of_lt (hafter u hu)⟩
    refine ⟨not_or.1 hunit, Int64.not_le.1 hnegative, ⟨t, hterms ▸ by simp, rfl⟩, ?_, ?_⟩
    · intro u hu hneg
      rw [hterms] at hu
      rcases List.mem_append.1 hu with hu | hu
      · exact absurd (hnonneg u hu) (Int64.not_le.2 hneg)
      · exact hle u hu
    · intro i u hu hu'
      rw [hterms] at hu ⊢
      by_cases hi : i < before.length
      · exact (passes_append_left hi _).2 (hpasses i)
      · -- `t` and the terms behind it have negative exponents
        rw [List.getElem?_append_right (Nat.le_of_not_lt hi)] at hu
        exact absurd (Int64.le_trans hu' (hle u (List.mem_of_getElem? hu))) hnegative

/-- **A power that is no integer is reported** exactly if it comes up. -/
theorem evaluate_eq_nonIntegral_iff (p : Polynomial) (x y e : Int64) :
    p.evaluate x = .error (.nonIntegral y e) ↔ y = x ∧ p.NonIntegralAt x e := by
  rw [nonIntegralAt_iff, evaluate, foldlM_eq_error_iff]
  constructor
  · rintro ⟨before, t, after, v, hterms, hbefore, ht⟩
    have hpower : ¬ HasPower x t.exponent := fun hpower => by
      cases eq_of_addValue_eq_error hpower ht
    rw [addValue_of_not_hasPower hpower] at ht
    cases ht
    exact ⟨rfl, before, t, after, hterms, rfl, (foldlM_addValue_eq_ok_iff.1 hbefore).1, hpower⟩
  · rintro ⟨rfl, before, t, after, hterms, rfl, hpasses, hpower⟩
    obtain ⟨v, hv⟩ := exists_toInt_iff.2 (fits_weightedSum hpasses)
    exact ⟨before, t, after, v, hterms, foldlM_addValue_eq_ok_iff.2 ⟨hpasses, hv⟩,
      addValue_of_not_hasPower hpower v⟩

/-- There is no other failure than the two. -/
lemma eq_of_evaluate_eq_error {p : Polynomial} {x : Int64} {fault : Fault}
    (h : p.evaluate x = .error fault) :
    fault = .evaluationOverflow x ∨ ∃ e, fault = .nonIntegral x e := by
  obtain ⟨before, t, after, v, -, -, ht⟩ := foldlM_eq_error_iff.1 h
  by_cases hpower : HasPower x t.exponent
  · exact .inl (eq_of_addValue_eq_error hpower ht)
  · rw [addValue_of_not_hasPower hpower] at ht
    exact .inr ⟨t.exponent, (Except.error.inj ht).symm⟩

/-- What is neither a value nor a power that is no integer is an overflow. -/
lemma evaluate_eq_overflow_iff (p : Polynomial) (x : Int64) :
    p.evaluate x = .error (.evaluationOverflow x)
      ↔ (¬ ∃ v, p.evaluate x = .ok v) ∧ ∀ e, p.evaluate x ≠ .error (.nonIntegral x e) := by
  cases h : p.evaluate x with
  | ok v => simp
  | error fault => rcases eq_of_evaluate_eq_error h with rfl | ⟨e, rfl⟩ <;> simp

/-- **The outcomes of an evaluation.**  There is a value exactly if all checks pass at every term,
and then it is the exact sum.  A power that is no integer is reported exactly at an `x` other than
`1` and `-1`, for the highest negative exponent, if all checks pass at the exponents from zero on.
Everything else is an overflow.  The powers meant here are those of rational numbers. -/
theorem evaluate_outcomes (p : Polynomial) (x : Int64) :
    ((∃ v, p.evaluate x = .ok v) ↔ ∀ i, Passes x p.terms i)
    ∧ (∀ v, p.evaluate x = .ok v → v.toInt = weightedSum (exactPower x) p.terms)
    ∧ (∀ e, p.evaluate x = .error (.nonIntegral x e) ↔ p.NonIntegralAt x e)
    ∧ (p.evaluate x = .error (.evaluationOverflow x)
      ↔ ¬ (∀ i, Passes x p.terms i) ∧ ∀ e, ¬ p.NonIntegralAt x e)
    ∧ ∀ e, 0 ≤ e ∨ x ≠ 0 → ∀ n : ℤ,
      (n : ℚ) = (x.toInt : ℚ) ^ e.toInt ↔ HasPower x e ∧ n = exactPower x e := by
  have hvalue : (∃ v, p.evaluate x = .ok v) ↔ ∀ i, Passes x p.terms i := by
    constructor
    · rintro ⟨v, hv⟩
      exact ((p.evaluate_eq_ok_iff x v).1 hv).1
    · intro hpasses
      obtain ⟨v, hv⟩ := exists_toInt_iff.2 (fits_weightedSum hpasses)
      exact ⟨v, (p.evaluate_eq_ok_iff x v).2 ⟨hpasses, hv⟩⟩
  have hnonIntegral (e) : p.evaluate x = .error (.nonIntegral x e) ↔ p.NonIntegralAt x e := by
    rw [p.evaluate_eq_nonIntegral_iff x x e, and_iff_right rfl]
  refine ⟨hvalue, fun v hv => ((p.evaluate_eq_ok_iff x v).1 hv).2, hnonIntegral, ?_,
    fun e he n => intCast_eq_zpow_iff he n⟩
  rw [evaluate_eq_overflow_iff, hvalue]
  exact and_congr_right fun _ => forall_congr' fun e => not_congr (hnonIntegral e)

/-- One polynomial for each outcome at `2`, and a negative power of `-1`. -/
theorem evaluate_outcomes_two :
    let p : Polynomial := ⟨[⟨3, 2⟩, ⟨4, 1⟩, ⟨-3, 0⟩], by decide⟩
    let q : Polynomial := ⟨[⟨2, 0⟩, ⟨1, -3⟩, ⟨1, -5⟩], by decide⟩
    let r : Polynomial := ⟨[⟨1, 64⟩, ⟨1, -1⟩], by decide⟩
    ((∀ i, Passes 2 p.terms i) ∧ 17 = weightedSum (exactPower 2) p.terms)
      ∧ q.NonIntegralAt 2 (-3)
      ∧ (¬ (∀ i, Passes 2 r.terms i) ∧ ∀ e, ¬ r.NonIntegralAt 2 e)
      ∧ HasPower (-1) (-3) ∧ -1 = exactPower (-1) (-3) := by
  intro p q r
  have hp : p.evaluate 2 = .ok 17 := by decide +kernel
  have hq : q.evaluate 2 = .error (.nonIntegral 2 (-3)) := by decide +kernel
  have hr : r.evaluate 2 = .error (.evaluationOverflow 2) := by decide +kernel
  have hlast : ((-1 : ℤ) : ℚ) = (((-1 : Int64).toInt : ℤ) : ℚ) ^ (-3 : Int64).toInt := by
    decide +kernel
  exact ⟨⟨(evaluate_outcomes p 2).1.1 ⟨17, hp⟩, (evaluate_outcomes p 2).2.1 17 hp⟩,
    ((evaluate_outcomes q 2).2.2.1 (-3)).1 hq, (evaluate_outcomes r 2).2.2.2.1.1 hr,
    ((evaluate_outcomes p (-1)).2.2.2.2 (-3) (.inr (by decide)) (-1)).1 hlast⟩

end Polynomial

end LaurentCalc
