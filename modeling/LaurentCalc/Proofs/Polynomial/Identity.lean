import LaurentCalc.Proofs.Expression.RoundTrip
import LaurentCalc.Proofs.Polynomial.Arithmetic

/-!
# What a polynomial is known by

A polynomial is stored as a list of terms, stands for a function from exponents to coefficients, and
is printed as a text.  Any one of the three determines the other two.  For the function this is a
matter of the canonical form: no exponent occurs twice, so a coefficient that is looked up is not
hidden by another one, and no term is zero, so every term shows in the function.  For the text it is
enough that it can be read back.

The leading term is at the front of the list only because the list is in order.  What it is can be
told from the coefficients: it belongs to the highest exponent at which there is one.

* **`Polynomial.eq_iff_coefficient`** — equal coefficients make equal polynomials.
* **`Polynomial.eq_iff_text`** — so do equal texts.
* **`Polynomial.leading?_eq_some_iff`** — the leading term by its coefficient and those above it.
* **`Polynomial.known_by_coefficients`** — all of it together.
-/

namespace LaurentCalc.Polynomial

/-! ## Coefficients -/

/-- **Equal coefficients make equal polynomials.** -/
theorem eq_iff_coefficient (p q : Polynomial) :
    p = q ↔ ∀ e, p.coefficient e = q.coefficient e := by
  constructor
  · rintro rfl e
    rfl
  · intro h
    refine exact_injective (Finsupp.ext fun e => ?_)
    rw [exact_apply, exact_apply, h]

/-- The coefficient at the exponent of a term is that of the term. -/
lemma coefficient_of_mem {p : Polynomial} {t : Term} (ht : t ∈ p.terms) :
    p.coefficient t.exponent = t.coefficient := by
  rw [← Int64.toInt_inj, ← exact_apply, exact_of_mem ht]

lemma coefficient_ne_zero_iff (p : Polynomial) (e : Int64) :
    p.coefficient e ≠ 0 ↔ ∃ t ∈ p.terms, t.exponent = e := by
  rw [← exact_ne_zero_iff, exact_apply, Ne, Ne, toInt_eq_zero_iff]

lemma isZero_iff_coefficient (p : Polynomial) : p.IsZero ↔ ∀ e, p.coefficient e = 0 :=
  have hzero : p.IsZero ↔ p = zero := by
    cases p
    simp [IsZero, zero]
  hzero.trans (eq_iff_coefficient p zero)

/-! ## Texts -/

/-- **Equal texts make equal polynomials**, since a text is read as one polynomial only. -/
theorem eq_iff_text (p q : Polynomial) : p = q ↔ p.text = q.text := by
  constructor
  · rintro rfl
    rfl
  · intro h
    have hq := q.ofText_printed
    rw [← h, ofText_printed] at hq
    exact Except.ok.inj hq

/-! ## The leading term -/

/-- **The leading term** has a coefficient, and there is none at any higher exponent. -/
theorem leading?_eq_some_iff (p : Polynomial) (t : Term) :
    p.leading? = some t
      ↔ t.coefficient = p.coefficient t.exponent ∧ p.coefficient t.exponent ≠ 0
        ∧ ∀ e, t.exponent < e → p.coefficient e = 0 := by
  have hpairwise := p.canonical.pairwise
  constructor
  case mp =>
    intro h
    obtain ⟨ts, hts⟩ := List.head?_eq_some_iff.1 h
    have ht : t ∈ p.terms := hts ▸ List.mem_cons_self
    refine ⟨(coefficient_of_mem ht).symm, (p.coefficient_ne_zero_iff _).2 ⟨t, ht, rfl⟩, ?_⟩
    intro e he
    by_contra hne
    obtain ⟨u, hu, rfl⟩ := (p.coefficient_ne_zero_iff e).1 hne
    rw [hts, List.pairwise_cons] at hpairwise
    rw [hts] at hu
    rcases List.mem_cons.1 hu with rfl | hu
    · exact Int64.lt_irrefl he
    · exact Int64.lt_irrefl (Int64.lt_trans he (hpairwise.1 u hu))
  case mpr =>
    rintro ⟨hcoefficient, hne, habove⟩
    obtain ⟨u, hu, hexponent⟩ := (p.coefficient_ne_zero_iff _).1 hne
    have hut : u = t := by
      have hvalue : u.coefficient = t.coefficient := by
        rw [hcoefficient, ← hexponent, coefficient_of_mem hu]
      cases u
      cases t
      rw [Term.mk.injEq]
      exact ⟨hvalue, hexponent⟩
    subst hut
    rw [leading?]
    cases hts : p.terms with
    | nil =>
        rw [hts] at hu
        cases hu
    | cons v ts =>
        have hv : v ∈ p.terms := hts ▸ List.mem_cons_self
        rw [hts] at hu hpairwise
        rcases List.mem_cons.1 hu with rfl | hu
        · rfl
        · -- a term in front of it would have a higher exponent
          have hlt : u.exponent < v.exponent := (List.pairwise_cons.1 hpairwise).1 u hu
          exact absurd (habove _ hlt) ((p.coefficient_ne_zero_iff _).2 ⟨v, hv, rfl⟩)

/-- The degree is the highest exponent with a coefficient. -/
lemma degree?_eq_some_iff (p : Polynomial) (d : Int64) :
    p.degree? = some d ↔ p.coefficient d ≠ 0 ∧ ∀ e, d < e → p.coefficient e = 0 := by
  rw [degree?, Option.map_eq_some_iff]
  simp only [leading?_eq_some_iff]
  constructor
  · rintro ⟨t, ⟨-, hne, habove⟩, rfl⟩
    exact ⟨hne, habove⟩
  · rintro ⟨hne, habove⟩
    exact ⟨⟨p.coefficient d, d⟩, ⟨rfl, hne, habove⟩, rfl⟩

/-- **A polynomial is known by its coefficients**, by its terms, and by its text alike.  Whether it
is zero, its degree and its leading term can be told from the coefficients alone: it is zero if
there are none; otherwise its degree is the highest exponent at which there is one, and the leading
term has that exponent and that coefficient. -/
theorem known_by_coefficients (p : Polynomial) :
    (∀ q : Polynomial, (p = q ↔ p.terms = q.terms)
      ∧ (p = q ↔ ∀ e, p.coefficient e = q.coefficient e) ∧ (p = q ↔ p.text = q.text))
    ∧ (p.IsZero ↔ ∀ e, p.coefficient e = 0)
    ∧ (p.IsZero ↔ p.degree? = none) ∧ (p.IsZero ↔ p.leading? = none)
    ∧ (∀ d, p.degree? = some d ↔ p.coefficient d ≠ 0 ∧ ∀ e, d < e → p.coefficient e = 0)
    ∧ (¬ p.IsZero → ∃ d, p.degree? = some d ∧ p.leading? = some ⟨p.coefficient d, d⟩) := by
  have hleading : p.IsZero ↔ p.leading? = none := by
    rw [leading?, List.head?_eq_none_iff, IsZero]
  refine ⟨fun q => ⟨?_, p.eq_iff_coefficient q, p.eq_iff_text q⟩, p.isZero_iff_coefficient, ?_,
    hleading, p.degree?_eq_some_iff, ?_⟩
  · cases p
    cases q
    simp
  · rw [hleading, degree?, Option.map_eq_none_iff]
  · intro hzero
    obtain ⟨t, ht⟩ := Option.ne_none_iff_exists'.1 (mt hleading.2 hzero)
    obtain ⟨hcoefficient, -, -⟩ := (p.leading?_eq_some_iff t).1 ht
    refine ⟨t.exponent, by rw [degree?, ht]; rfl, ?_⟩
    rw [ht, ← hcoefficient]

/-- Two polynomials that differ in their least exponents only, and the leading term of one. -/
theorem known_by_coefficients_least :
    let p : Polynomial := ⟨[⟨-1, 1⟩, ⟨1, -9223372036854775808⟩], by decide⟩
    let q : Polynomial := ⟨[⟨-1, 1⟩, ⟨1, -9223372036854775807⟩], by decide⟩
    (p.text ≠ q.text ∧ p ≠ q ∧ ¬ ∀ e, p.coefficient e = q.coefficient e)
      ∧ ¬ p.IsZero ∧ p.coefficient 1 = -1
      ∧ ∃ d, p.degree? = some d ∧ p.leading? = some ⟨p.coefficient d, d⟩ := by
  intro p q
  obtain ⟨hequal, -, -, -, -, hleading⟩ := known_by_coefficients p
  have htext : p.text ≠ q.text := by decide +kernel
  have hne : p ≠ q := mt (hequal q).2.2.1 htext
  have hzero : ¬ p.IsZero := by decide
  exact ⟨⟨htext, hne, mt (hequal q).2.1.2 hne⟩, hzero, by decide, hleading hzero⟩

end LaurentCalc.Polynomial
