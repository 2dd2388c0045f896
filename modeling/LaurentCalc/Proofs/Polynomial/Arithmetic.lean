import LaurentCalc.Proofs.Polynomial.Exact

/-!
# Exact arithmetic behind the operations

Every operation on polynomials ends in a canonical form, which may fail, and some go through
several of them.  On the exact side the operations are those of functions and never fail.  Here
each operation gets one equation: it returns the polynomial that means the exact result.  Whether
there is such a polynomial is then a matter of `Polynomial.exists_exact_iff`; only where something
is formed on the way does the equation ask for more.

* `ExactPolynomial.ofText?`, `negate`, `runningSums` — the exact operations.
* `Polynomial.add_eq_ok_iff`, `addText_eq_ok_iff`, `negate_eq_ok_iff`, … — one equation each.
* **`Polynomial.foldlM_add_eq_ok_iff`** — a sum needs every sum on the way to fit.
-/

namespace LaurentCalc

/-! ## Exact operations -/

namespace ExactPolynomial

/-- What an expression means, if it is one. -/
noncomputable def ofText? (text : String) : Option ExactPolynomial :=
  (termsOfText text).toOption.map ofTerms

/-- The opposite of an integer, but the least one of 64 bits is left as it is. -/
def opposite (n : ℤ) : ℤ := if n = -0x8000000000000000 then n else -n

lemma opposite_zero : opposite 0 = 0 := rfl

noncomputable def negate (m : ExactPolynomial) : ExactPolynomial :=
  m.mapRange opposite opposite_zero

/-- The sum after each of the summands, starting from `m`. -/
noncomputable def runningSums (m : ExactPolynomial) : List ExactPolynomial → List ExactPolynomial
  | [] => []
  | n :: ns => (m + n) :: runningSums (m + n) ns

end ExactPolynomial

/-! ## Calculations that succeed -/

lemma bind_eq_ok_iff {ε α β : Type} {x : Except ε α} {f : α → Except ε β} {b : β} :
    x >>= f = .ok b ↔ ∃ a, x = .ok a ∧ f a = .ok b := by
  cases x <;> simp [bind, Except.bind]

lemma mapError_eq_ok_iff {ε ε' α : Type} {f : ε → ε'} {x : Except ε α} {a : α} :
    x.mapError f = .ok a ↔ x = .ok a := by
  cases x <;> simp [Except.mapError]

/-- A fold fails at the first item at which its step does. -/
lemma foldlM_eq_error_iff {ε α β : Type} {f : β → α → Except ε β} {b : β} {as : List α} {e : ε} :
    as.foldlM f b = .error e
      ↔ ∃ before a after b', as = before ++ a :: after ∧ before.foldlM f b = .ok b'
        ∧ f b' a = .error e := by
  induction as generalizing b with
  | nil => simp [pure, Except.pure]
  | cons a as ih =>
      rw [List.foldlM_cons]
      cases hstep : f b a with
      | error e' =>
          constructor
          · intro h
            exact ⟨[], a, as, b, rfl, rfl, hstep.trans h⟩
          · rintro ⟨_ | ⟨c, before⟩, a', after, b', hsplit, hbefore, hfails⟩
            · cases hsplit
              cases hbefore
              exact hstep.symm.trans hfails
            · cases hsplit
              rw [List.foldlM_cons, hstep] at hbefore
              cases hbefore
      | ok b₁ =>
          show as.foldlM f b₁ = .error e ↔ _
          rw [ih]
          constructor
          · rintro ⟨before, a', after, b', rfl, hbefore, hfails⟩
            refine ⟨a :: before, a', after, b', rfl, ?_, hfails⟩
            rw [List.foldlM_cons, hstep]
            exact hbefore
          · rintro ⟨_ | ⟨c, before⟩, a', after, b', hsplit, hbefore, hfails⟩
            · cases hsplit
              cases hbefore
              rw [hstep] at hfails
              cases hfails
            · cases hsplit
              rw [List.foldlM_cons, hstep] at hbefore
              exact ⟨before, a', after, b', rfl, hbefore, hfails⟩

lemma ExactPolynomial.ofText?_eq_some_iff (text : String) (m : ExactPolynomial) :
    ofText? text = some m ↔ ∃ ts, termsOfText text = .ok ts ∧ ofTerms ts = m := by
  cases h : termsOfText text <;> simp [ofText?, h, Except.toOption]

/-! ## Sums -/

namespace Polynomial

lemma ofText_eq_ok_iff (text : String) (p : Polynomial) :
    ofText text = .ok p ↔ ExactPolynomial.ofText? text = some p.exact := by
  rw [ofText, bind_eq_ok_iff, ExactPolynomial.ofText?_eq_some_iff]
  simp only [ofTerms_eq_ok_iff_exact, eq_comm (a := p.exact)]

lemma add_eq_ok_iff (p q r : Polynomial) : p.add q = .ok r ↔ r.exact = p.exact + q.exact := by
  rw [add, ofTerms_eq_ok_iff_exact, ExactPolynomial.ofTerms_append]
  rfl

lemma addText_eq_ok_iff (p r : Polynomial) (text : String) :
    p.addText text = .ok r
      ↔ ∃ n, ExactPolynomial.ofText? text = some n ∧ r.exact = p.exact + n := by
  rw [addText, bind_eq_ok_iff]
  simp only [ExactPolynomial.ofText?_eq_some_iff, ofTerms_eq_ok_iff_exact,
    ExactPolynomial.ofTerms_append]
  constructor
  · rintro ⟨ts, hts, hr⟩
    exact ⟨_, ⟨ts, hts, rfl⟩, hr⟩
  · rintro ⟨_, ⟨ts, hts, rfl⟩, hr⟩
    exact ⟨ts, hts, hr⟩

open ExactPolynomial in
lemma sumOfTexts_eq_ok_iff (a b : String) (r : Polynomial) :
    sumOfTexts a b = .ok r
      ↔ ∃ m, ofText? a = some m ∧ ∃ n, ofText? b = some n
        ∧ m.Fitting ∧ r.exact = m + n := by
  rw [sumOfTexts, bind_eq_ok_iff]
  simp only [addText_eq_ok_iff, exact_zero, zero_add]
  constructor
  · rintro ⟨p, ⟨m, hm, hp⟩, n, hn, hr⟩
    exact ⟨m, hm, n, hn, hp ▸ p.fitting_exact, hp ▸ hr⟩
  · rintro ⟨m, hm, n, hn, hfits, hr⟩
    obtain ⟨p, hp⟩ := (exists_exact_iff m).2 hfits
    exact ⟨p, ⟨m, hm, hp⟩, n, hn, hp ▸ hr⟩

open ExactPolynomial in
/-- Adding one after the other succeeds when every sum on the way fits. -/
lemma foldlM_add_eq_ok_iff (p r : Polynomial) (ps : List Polynomial) :
    ps.foldlM add p = .ok r
      ↔ (∀ m ∈ runningSums p.exact (ps.map exact), m.Fitting)
        ∧ r.exact = (runningSums p.exact (ps.map exact)).getLastD p.exact := by
  induction ps generalizing p with
  | nil =>
      show Except.ok p = Except.ok r ↔ _
      simp [runningSums, exact_injective.eq_iff, eq_comm]
  | cons q ps ih =>
      rw [List.foldlM_cons, bind_eq_ok_iff, List.map_cons, runningSums, List.forall_mem_cons,
        List.getLastD_cons]
      simp only [add_eq_ok_iff, ih]
      constructor
      · rintro ⟨s, hs, hfits, hr⟩
        rw [← hs]
        exact ⟨⟨s.fitting_exact, hfits⟩, hr⟩
      · rintro ⟨⟨hsum, hfits⟩, hr⟩
        obtain ⟨s, hs⟩ := (exists_exact_iff _).2 hsum
        refine ⟨s, hs, ?_⟩
        rw [hs]
        exact ⟨hfits, hr⟩

end Polynomial

/-! ## Negation -/

lemma toInt_neg (c : Int64) : (-c).toInt = ExactPolynomial.opposite c.toInt := by
  have hlow := c.le_toInt
  have hhigh := c.toInt_lt
  rw [Int64.toInt_neg, ExactPolynomial.opposite]
  split
  next hleast => rw [hleast]; rfl
  next hleast => rw [Int.bmod_eq_of_le] <;> omega

lemma exactSum_map_negate {ts : List Term} (h : ts.Pairwise fun a b => b.exponent < a.exponent)
    (e : Int64) : exactSum (ts.map Term.negate) e = ExactPolynomial.opposite (exactSum ts e) := by
  by_cases hterm : ∃ t ∈ ts, t.exponent = e
  · obtain ⟨t, ht, rfl⟩ := hterm
    have hmap : (ts.map Term.negate).Pairwise fun a b => b.exponent < a.exponent :=
      List.pairwise_map.2 h
    rw [exactSum_of_mem h ht, ← toInt_neg]
    exact exactSum_of_mem hmap (List.mem_map_of_mem ht)
  · push Not at hterm
    have hmap : ∀ t ∈ ts.map Term.negate, t.exponent ≠ e := by
      intro t ht
      obtain ⟨u, hu, rfl⟩ := List.mem_map.1 ht
      exact hterm u hu
    rw [exactSum_eq_zero hterm, exactSum_eq_zero hmap]
    rfl

lemma Polynomial.negate_eq_ok_iff (p r : Polynomial) :
    p.negate = .ok r ↔ r.exact = p.exact.negate := by
  have hnegate : ExactPolynomial.ofTerms (p.terms.map Term.negate) = p.exact.negate := by
    ext e
    rw [ExactPolynomial.ofTerms_apply, exactSum_map_negate p.canonical.pairwise,
      ExactPolynomial.negate, Finsupp.mapRange_apply, exact, ExactPolynomial.ofTerms_apply]
  rw [Polynomial.negate, ofTerms_eq_ok_iff_exact, hnegate]

lemma ExactPolynomial.fitting_negate {m : ExactPolynomial} (h : m.Fitting) : m.negate.Fitting := by
  intro e
  have he := h e
  rw [negate, Finsupp.mapRange_apply, opposite]
  unfold Fits at he ⊢
  split <;> omega

end LaurentCalc
