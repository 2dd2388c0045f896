import LaurentCalc.Proofs.Polynomial.Arithmetic
import LaurentCalc.Proofs.Polynomial.Powers

/-!
# The value of written terms

A list of terms has a value at an integer: the sum of the values of its terms.  Evaluation does not
go over the list as it was written, though, but over its canonical form, where terms are merged,
cancelled and put in order, and it does so in 64 bits.  Still it comes to the value of the written
terms, because that value depends only on what the list means, and because a number that evaluation
forms is either exact or an end of it.

A negative power is an integer only of the two units `1` and `-1`.  Elsewhere a polynomial that has
a value has no negative exponents left, so the written terms that had one cancel.

* `weightedSum` — the value of a list of terms, given the powers.
* **`weightedSum_congr`** — it depends only on what the list means.
* `Passes` — the checks that evaluation makes at one term.
* **`addValue_eq_ok_iff`**, `foldlM_addValue_eq_ok_iff` — one term, and then all of them: a value is
  found exactly if all checks pass, and it is exact.
* **`Polynomial.evaluate_ofTerms`** — the value is that of the written terms.
-/

namespace LaurentCalc

/-! ## The value of a list of terms -/

/-- The sum of the coefficients, each times what `power` gives for its exponent. -/
def weightedSum (power : Int64 → ℤ) (ts : List Term) : ℤ :=
  (ts.map fun t => t.coefficient.toInt * power t.exponent).sum

@[simp] lemma weightedSum_nil (f : Int64 → ℤ) : weightedSum f [] = 0 := rfl

lemma weightedSum_cons (f : Int64 → ℤ) (t : Term) (ts : List Term) :
    weightedSum f (t :: ts) = t.coefficient.toInt * f t.exponent + weightedSum f ts := by
  simp [weightedSum]

lemma weightedSum_append (f : Int64 → ℤ) (ts us : List Term) :
    weightedSum f (ts ++ us) = weightedSum f ts + weightedSum f us := by
  simp [weightedSum]

/-- Only the powers that occur make a difference. -/
lemma weightedSum_eq_of_powers {f g : Int64 → ℤ} {ts : List Term}
    (h : ∀ t ∈ ts, f t.exponent = g t.exponent) : weightedSum f ts = weightedSum g ts := by
  rw [weightedSum, weightedSum, List.map_congr_left fun t ht => by rw [h t ht]]

/-- The sum may be taken exponent by exponent. -/
lemma weightedSum_eq_sum (f : Int64 → ℤ) (ts : List Term) :
    weightedSum f ts = (ExactPolynomial.ofTerms ts).sum fun e c => c * f e := by
  induction ts with
  | nil => rfl
  | cons t ts ih =>
      have hcons : ExactPolynomial.ofTerms (t :: ts)
          = Finsupp.single t.exponent t.coefficient.toInt + .ofTerms ts := by
        simp [ExactPolynomial.ofTerms]
      rw [weightedSum_cons, ih, hcons, Finsupp.sum_add_index' (fun _ => zero_mul _)
        (fun _ _ _ => add_mul _ _ _), Finsupp.sum_single_index (zero_mul _)]

/-- **Lists that mean the same have one value**, whatever the powers are. -/
theorem weightedSum_congr (f : Int64 → ℤ) {ts us : List Term}
    (h : ExactPolynomial.ofTerms ts = .ofTerms us) : weightedSum f ts = weightedSum f us := by
  rw [weightedSum_eq_sum, weightedSum_eq_sum, h]

/-- Where the powers are zero, the terms may be left out. -/
lemma weightedSum_filter (f : Int64 → ℤ) (P : Int64 → Prop) [DecidablePred P] (ts : List Term) :
    weightedSum f (ts.filter fun t => P t.exponent)
      = weightedSum (fun e => if P e then f e else 0) ts := by
  induction ts with
  | nil => rfl
  | cons t ts ih =>
      rw [weightedSum_cons, ← ih]
      by_cases ht : P t.exponent
      · rw [List.filter_cons_of_pos (by simpa using ht), weightedSum_cons, if_pos ht]
      · rw [List.filter_cons_of_neg (by simpa using ht), if_neg ht, mul_zero, zero_add]

/-! ## Evaluation -/

/-- A product and a sum in 64 bits are those of the integers, if the product fits. -/
lemma bind_mul?_add?_eq_some_iff {a b c w : Int64} :
    (mul? a b).bind (add? c) = some w
      ↔ Fits (a.toInt * b.toInt) ∧ w.toInt = c.toInt + a.toInt * b.toInt := by
  simp only [Option.bind_eq_some_iff, mul?_eq_some_iff, add?_eq_some_iff]
  constructor
  · rintro ⟨m, hm, hw⟩
    exact ⟨hm ▸ fits_toInt m, hm ▸ hw⟩
  · rintro ⟨hfits, hw⟩
    obtain ⟨m, hm⟩ := exists_toInt_iff.2 hfits
    exact ⟨m, hm, by rw [hm, hw]⟩

/-- **One more term**: its power has to be an integer, the power, the product and the sum have to
fit, and then nothing is lost. -/
theorem addValue_eq_ok_iff {x v v' : Int64} {t : Term} :
    addValue x v t = .ok v'
      ↔ HasPower x t.exponent ∧ Fits (exactPower x t.exponent)
        ∧ Fits (t.coefficient.toInt * exactPower x t.exponent)
        ∧ v'.toInt = v.toInt + t.coefficient.toInt * exactPower x t.exponent := by
  have hstep : addValue x v t = .ok v' ↔ ∃ w, power x t.exponent = .ok w
      ∧ Fits (t.coefficient.toInt * w.toInt)
      ∧ v'.toInt = v.toInt + t.coefficient.toInt * w.toInt := by
    rw [addValue, bind_eq_ok_iff]
    refine exists_congr fun w => and_congr_right fun _ => ?_
    rw [← bind_mul?_add?_eq_some_iff]
    cases (mul? t.coefficient w).bind (add? v) <;> simp
  simp only [hstep, power_eq_ok_iff]
  constructor
  · rintro ⟨w, ⟨hpower, hw⟩, hproduct, hv'⟩
    rw [← hw]
    exact ⟨hpower, fits_toInt w, hproduct, hv'⟩
  · rintro ⟨hpower, hfits, hproduct, hv'⟩
    obtain ⟨w, hw⟩ := exists_toInt_iff.2 hfits
    rw [← hw] at hproduct hv'
    exact ⟨w, ⟨hpower, hw⟩, hproduct, hv'⟩

/-- The checks at the term with the number `i`, counted from zero: its power is an integer, and the
power, the product with the coefficient, and the sum of all products up to this one fit. -/
def Passes (x : Int64) (ts : List Term) (i : ℕ) : Prop :=
  ∀ t ∈ ts[i]?, HasPower x t.exponent ∧ Fits (exactPower x t.exponent)
    ∧ Fits (t.coefficient.toInt * exactPower x t.exponent)
    ∧ Fits (weightedSum (exactPower x) (ts.take (i + 1)))

/-- Terms behind it make no difference to a term. -/
lemma passes_append_left {x : Int64} {ts : List Term} {i : ℕ} (hi : i < ts.length)
    (us : List Term) : Passes x (ts ++ us) i ↔ Passes x ts i := by
  rw [Passes, Passes, List.getElem?_append_left hi, List.take_append_of_le_length hi]

lemma forall_passes_append_singleton {x : Int64} {ts : List Term} {t : Term} :
    (∀ i, Passes x (ts ++ [t]) i)
      ↔ (∀ i, Passes x ts i) ∧ HasPower x t.exponent ∧ Fits (exactPower x t.exponent)
        ∧ Fits (t.coefficient.toInt * exactPower x t.exponent)
        ∧ Fits (weightedSum (exactPower x) (ts ++ [t])) := by
  have hlast : Passes x (ts ++ [t]) ts.length
      ↔ HasPower x t.exponent ∧ Fits (exactPower x t.exponent)
        ∧ Fits (t.coefficient.toInt * exactPower x t.exponent)
        ∧ Fits (weightedSum (exactPower x) (ts ++ [t])) := by
    simp [Passes, List.take_of_length_le]
  rw [← hlast]
  constructor
  · refine fun h => ⟨fun i => ?_, h ts.length⟩
    by_cases hi : i < ts.length
    · exact (passes_append_left hi [t]).1 (h i)
    · simp [Passes, hi]
  · rintro ⟨hts, ht⟩ i
    rcases Nat.lt_trichotomy i ts.length with hi | rfl | hi
    · exact (passes_append_left hi [t]).2 (hts i)
    · exact ht
    · have hnone : (ts ++ [t])[i]? = none := by
        rw [List.getElem?_eq_none_iff, List.length_append, List.length_singleton]
        omega
      simp [Passes, hnone]

/-- If all checks pass, the sum of all products fits. -/
lemma fits_weightedSum {x : Int64} {ts : List Term} (h : ∀ i, Passes x ts i) :
    Fits (weightedSum (exactPower x) ts) := by
  induction ts using List.reverseRecOn with
  | nil =>
      rw [weightedSum_nil]
      decide
  | append_singleton ts t _ => exact (forall_passes_append_singleton.1 h).2.2.2.2

/-- **All terms**, one after the other: there is a value exactly if all checks pass, and it is the
exact sum. -/
theorem foldlM_addValue_eq_ok_iff {x : Int64} {ts : List Term} {v : Int64} :
    ts.foldlM (addValue x) 0 = .ok v
      ↔ (∀ i, Passes x ts i) ∧ v.toInt = weightedSum (exactPower x) ts := by
  induction ts using List.reverseRecOn generalizing v with
  | nil =>
      show Except.ok 0 = Except.ok v ↔ _
      simp [Passes, toInt_eq_zero_iff, eq_comm]
  | append_singleton ts t ih =>
      have hone : ∀ u, [t].foldlM (addValue x) u = addValue x u t := fun u => by
        rw [List.foldlM_cons]
        exact bind_pure _
      rw [List.foldlM_append, bind_eq_ok_iff, forall_passes_append_singleton, weightedSum_append,
        weightedSum_cons, weightedSum_nil, add_zero]
      simp only [hone, ih, addValue_eq_ok_iff]
      constructor
      · rintro ⟨u, ⟨hts, hu⟩, hpower, hfits, hproduct, hv⟩
        rw [hu] at hv
        exact ⟨⟨hts, hpower, hfits, hproduct, hv ▸ fits_toInt v⟩, hv⟩
      · rintro ⟨⟨hts, hpower, hfits, hproduct, -⟩, hv⟩
        obtain ⟨u, hu⟩ := exists_toInt_iff.2 (fits_weightedSum hts)
        rw [← hu] at hv
        exact ⟨u, ⟨hts, hu⟩, hpower, hfits, hproduct, hv⟩

namespace Polynomial

lemma evaluate_eq_ok_iff (p : Polynomial) (x v : Int64) :
    p.evaluate x = .ok v
      ↔ (∀ i, Passes x p.terms i) ∧ v.toInt = weightedSum (exactPower x) p.terms :=
  foldlM_addValue_eq_ok_iff

lemma hasPower_of_evaluate {p : Polynomial} {x v : Int64} (h : p.evaluate x = .ok v) :
    ∀ t ∈ p.terms, HasPower x t.exponent := by
  intro t ht
  obtain ⟨i, hi⟩ := List.mem_iff_getElem?.1 ht
  exact (((p.evaluate_eq_ok_iff x v).1 h).1 i t hi).1

end Polynomial

/-- **Simplification keeps the value.**  If the polynomial of some terms has a value at `x`, it is
that of the terms as they were written, however they repeat, cancel or overflow on their way.  At
`1` and `-1`, which are their own inverses, all powers exist, and the value is the sum over all the
terms.  At every other `x` the coefficients of each negative exponent cancel, and the value is the
sum over the other terms. -/
theorem Polynomial.evaluate_ofTerms {ts : List Term} {p : Polynomial} {x v : Int64}
    (hp : ofTerms ts = .ok p) (hv : p.evaluate x = .ok v) :
    (x = 1 ∨ x = -1 → v.toInt = weightedSum (fun e => x.toInt ^ e.toInt.natAbs) ts)
    ∧ (x ≠ 1 → x ≠ -1 → (∀ e < 0, exactSum ts e = 0)
      ∧ v.toInt = weightedSum (fun e => x.toInt ^ e.toInt.toNat)
        (ts.filter fun t => 0 ≤ t.exponent)) := by
  have hmeaning : ExactPolynomial.ofTerms p.terms = .ofTerms ts :=
    (ofTerms_eq_ok_iff_exact ts p).1 hp
  have hvalue : v.toInt = weightedSum (exactPower x) p.terms :=
    ((p.evaluate_eq_ok_iff x v).1 hv).2
  constructor
  case left =>
    intro _
    rw [hvalue]
    exact weightedSum_congr _ hmeaning
  case right =>
    intro hx hx'
    have hnonneg : ∀ t ∈ p.terms, 0 ≤ t.exponent := fun t ht =>
      (hasPower_of_evaluate hv t ht).resolve_right (by simp [hx, hx'])
    constructor
    · intro e he
      rw [← ExactPolynomial.ofTerms_apply, ← hmeaning, ExactPolynomial.ofTerms_apply]
      refine exactSum_eq_zero fun t ht hte => ?_
      exact absurd (hte ▸ hnonneg t ht) (Int64.not_le.2 he)
    · rw [weightedSum_filter, ← weightedSum_congr _ hmeaning, hvalue]
      refine weightedSum_eq_of_powers fun t ht => ?_
      have hn : 0 ≤ t.exponent.toInt := Int64.le_iff_toInt_le.1 (hnonneg t ht)
      have hnat : t.exponent.toInt.natAbs = t.exponent.toInt.toNat := by omega
      rw [if_pos (hnonneg t ht), exactPower, hnat]

/-- Terms whose sum leaves the range on its way and whose negative exponents cancel, at `2`; and
terms that keep their negative exponents, at `-1`. -/
theorem Polynomial.evaluate_ofTerms_cancelled :
    let ts : List Term := [⟨9223372036854775807, 1⟩, ⟨5, -3⟩, ⟨3, 2⟩, ⟨1, 1⟩, ⟨-5, -3⟩,
      ⟨-9223372036854775807, 1⟩]
    let p : Polynomial := ⟨[⟨3, 2⟩, ⟨1, 1⟩], by decide⟩
    let us : List Term := [⟨2, -3⟩, ⟨4, -2⟩, ⟨1, -3⟩]
    let q : Polynomial := ⟨[⟨4, -2⟩, ⟨3, -3⟩], by decide⟩
    (ofTerms ts = .ok p ∧ p.evaluate 2 = .ok 14 ∧ exactSum ts (-3) = 0
        ∧ 14 = weightedSum (fun e => 2 ^ e.toInt.toNat) (ts.filter fun t => 0 ≤ t.exponent))
      ∧ ofTerms us = .ok q ∧ q.evaluate (-1) = .ok 1
        ∧ 1 = weightedSum (fun e => (-1) ^ e.toInt.natAbs) us := by
  intro ts p us q
  have hp : ofTerms ts = .ok p := by decide +kernel
  have hv : p.evaluate 2 = .ok 14 := by decide +kernel
  have hq : ofTerms us = .ok q := by decide +kernel
  have hw : q.evaluate (-1) = .ok 1 := by decide +kernel
  have hts := (evaluate_ofTerms hp hv).2 (by decide) (by decide)
  exact ⟨⟨hp, hv, hts.1 (-3) (by decide), hts.2⟩, hq, hw, (evaluate_ofTerms hq hw).1 (.inr rfl)⟩

end LaurentCalc
