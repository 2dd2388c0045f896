import LaurentCalc.Proofs.CanonicalForm.ExactSum
import LaurentCalc.Term.Addition
import Mathlib.Data.List.Perm.Basic
import Mathlib.Data.List.Sort
import Mathlib.Logic.Relation

/-!
# Merging like terms two at a time

The canonical form can be asked for in another way: pick any two like terms, put their sum in
their place, and go on until no two terms are like.  Each sum has to fit, so what is reached
depends on the choices as long as one of them may overflow.  Two things make it the canonical form
all the same.

* `Merge` keeps every exact sum (`exactSum_merge`), so all runs that come to an end agree, although
  likeness is not transitive and a cancelled term keeps an exponent that means nothing.
* If every sum fits, some merge is possible as long as two terms are like (`exists_merge`): a
  partner of the other sign never overflows, and without one the partial sums only approach the
  sum of the whole group.

**`canonicalForm_merging`** puts the two together.
-/

namespace LaurentCalc

/-! ## Runs of merges -/

/-- The list after the terms at two places have been merged: the sum takes the first place, the
second one goes. -/
def mergeAt (ts : List Term) (i j : Fin ts.length) : Except Fault (List Term) := do
  let c ← ts[i].add ts[j]
  return (ts.set i c).eraseIdx j

/-- Some two terms at different places are like, and merging them leads from one list to the
other. -/
def Merge (ts us : List Term) : Prop :=
  ∃ i j : Fin ts.length, i ≠ j ∧ ts[i].Like ts[j] ∧ mergeAt ts i j = .ok us

/-- Any number of merges, with any choices, none of which overflows. -/
def Merges : List Term → List Term → Prop := Relation.ReflTransGen Merge

/-- No two terms at different places are like. -/
def Settled (ts : List Term) : Prop := ∀ i j : Fin ts.length, i ≠ j → ¬ ts[i].Like ts[j]

/-- The terms that are not zero, the highest degree first. -/
def tidy (ts : List Term) : List Term :=
  (ts.filter fun t => ¬ t.IsZero).mergeSort fun a b => (a.compare b).isGE

/-! ## What a merge keeps -/

lemma Term.add_eq_ok {a b c : Term} (h : a.add b = .ok c) :
    c.coefficient.toInt = a.coefficient.toInt + b.coefficient.toInt
      ∧ c.exponent = sharedExponent a b := by
  rw [Term.add] at h
  split at h
  · split at h
    next w hw =>
      cases h
      exact ⟨add?_eq_some_iff.1 hw, rfl⟩
    next => cases h
  · cases h

/-- The sum of two like terms means what the two mean together. -/
lemma exactSum_add {a b c : Term} (hlike : a.Like b) (h : a.add b = .ok c) (e : Int64) :
    exactSum [c] e = exactSum [a] e + exactSum [b] e := by
  obtain ⟨hc, he⟩ := Term.add_eq_ok h
  simp only [exactSum_cons, exactSum_nil, add_zero, hc, he, Term.sharedExponent]
  by_cases ha : a.IsZero
  · have hac : a.coefficient.toInt = 0 := toInt_eq_zero_iff.2 ha
    by_cases hb : b.IsZero
    · have hbc : b.coefficient.toInt = 0 := toInt_eq_zero_iff.2 hb
      simp [hac, hbc]
    · simp [ha, hb, hac, Term.simplified]
  · by_cases hb : b.IsZero
    · have hbc : b.coefficient.toInt = 0 := toInt_eq_zero_iff.2 hb
      simp [ha, hbc]
    · have hab : a.exponent = b.exponent := by
        rcases hlike with h | h | h
        · exact absurd h ha
        · exact absurd h hb
        · exact h
      rw [if_neg ha, hab]
      split_ifs <;> simp

/-- Like terms can always be merged, unless their sum does not fit. -/
lemma mergeAt_eq_ok_or_overflow {ts : List Term} {i j : Fin ts.length} (hlike : ts[i].Like ts[j]) :
    (∃ us, mergeAt ts i j = .ok us)
      ∨ mergeAt ts i j = .error (.coefficientOverflow ts[i] ts[j]) := by
  rw [mergeAt, Term.add, if_pos hlike]
  cases add? ts[i].coefficient ts[j].coefficient with
  | none => exact .inr rfl
  | some c => exact .inl ⟨_, rfl⟩

lemma mergeAt_eq_ok_iff {ts us : List Term} {i j : Fin ts.length} :
    mergeAt ts i j = .ok us ↔ ∃ c, ts[i].add ts[j] = .ok c ∧ us = (ts.set i c).eraseIdx j := by
  rw [mergeAt]
  cases ts[i].add ts[j] <;> simp [bind, Except.bind, pure, Except.pure, eq_comm]

/-- **A merge keeps every exact sum.** -/
theorem exactSum_merge {ts us : List Term} (h : Merge ts us) (e : Int64) :
    exactSum us e = exactSum ts e := by
  obtain ⟨i, j, hne, hlike, hmerge⟩ := h
  obtain ⟨c, hc, rfl⟩ := mergeAt_eq_ok_iff.1 hmerge
  have hadd := exactSum_add hlike hc e
  have hij : (i : ℕ) ≠ j := fun h => hne (Fin.ext h)
  have hj : (j : ℕ) < (ts.set i c).length := by simp
  -- the list with the sum in it, and the list before, each with one term taken out
  have hset := exactSum_perm (List.set_perm_cons_eraseIdx i.2 c) e
  have hts := exactSum_perm (List.getElem_cons_eraseIdx_perm i.2) e
  have herase := exactSum_perm (List.getElem_cons_eraseIdx_perm hj) e
  rw [List.getElem_set_ne hij] at herase
  simp only [exactSum_cons, exactSum_nil, Fin.getElem_fin] at hadd hset hts herase
  omega

lemma length_merge {ts us : List Term} (h : Merge ts us) : us.length + 1 = ts.length := by
  obtain ⟨i, j, -, -, hmerge⟩ := h
  obtain ⟨c, -, rfl⟩ := mergeAt_eq_ok_iff.1 hmerge
  have hj : (j : ℕ) < (ts.set i c).length := by simp
  rw [List.length_eraseIdx_of_lt hj, List.length_set]
  have := j.2
  omega

lemma exactSum_merges {ts us : List Term} (h : Merges ts us) (e : Int64) :
    exactSum us e = exactSum ts e := by
  induction h with
  | refl => rfl
  | tail _ hstep ih => rw [exactSum_merge hstep, ih]

/-! ## Some merge goes through -/

lemma Term.exists_add_of_fits {a b : Term} (hlike : a.Like b)
    (hfits : Fits (a.coefficient.toInt + b.coefficient.toInt)) : ∃ c, a.add b = .ok c := by
  have hc : add? a.coefficient b.coefficient = some _ := int64?_eq_some_iff.2 hfits.toInt_ofInt
  rw [Term.add, if_pos hlike, hc]
  exact ⟨_, rfl⟩

/-- A zero term overflows with nobody, so like terms that overflow share their exponent. -/
lemma Term.Like.of_not_fits {a b : Term} (hlike : a.Like b)
    (h : ¬ Fits (a.coefficient.toInt + b.coefficient.toInt)) :
    ¬ a.IsZero ∧ ¬ b.IsZero ∧ a.exponent = b.exponent := by
  have ha : ¬ a.IsZero := fun hz => by
    rw [toInt_eq_zero_iff.2 hz, zero_add] at h
    exact h (fits_toInt _)
  have hb : ¬ b.IsZero := fun hz => by
    rw [toInt_eq_zero_iff.2 hz, add_zero] at h
    exact h (fits_toInt _)
  exact ⟨ha, hb, (hlike.resolve_left ha).resolve_left hb⟩

/-- If the coefficients at an exponent all have the sign `σ`, their sum is beyond each of them. -/
lemma le_exactSum (σ : ℤ) {ts : List Term} {e : Int64}
    (h : ∀ t ∈ ts, t.exponent = e → 0 ≤ σ * t.coefficient.toInt) :
    0 ≤ σ * exactSum ts e
      ∧ ∀ t ∈ ts, t.exponent = e → σ * t.coefficient.toInt ≤ σ * exactSum ts e := by
  induction ts with
  | nil => simp
  | cons t ts ih =>
      obtain ⟨hsum, hle⟩ := ih fun u hu => h u (List.mem_cons_of_mem t hu)
      have ht := h t List.mem_cons_self
      rw [exactSum_cons, Int.mul_add]
      split_ifs with he
      · have hnonneg := ht he
        refine ⟨by omega, fun u hu hue => ?_⟩
        rcases List.mem_cons.1 hu with rfl | hu
        · omega
        · have := hle u hu hue
          omega
      · refine ⟨by omega, fun u hu hue => ?_⟩
        rcases List.mem_cons.1 hu with rfl | hu
        · exact absurd hue he
        · have := hle u hu hue
          omega

/-- Two summands overflow only to the side on which both of them lie. -/
lemma nonneg_of_not_fits {σ m n : ℤ} (hσ : σ = 1 ∨ σ = -1) (hm : Fits m) (hn : Fits n)
    (hσm : 0 ≤ σ * m) (h : ¬ Fits (m + n)) : 0 ≤ σ * n := by
  simp only [Fits] at *
  rcases hσ with rfl | rfl <;> omega

/-- Further out on that side there is nothing that fits. -/
lemma not_fits_of_le {σ m n k : ℤ} (hσ : σ = 1 ∨ σ = -1) (hm : Fits m) (hn : Fits n)
    (hσm : 0 ≤ σ * m) (h : ¬ Fits (m + n)) (hnk : σ * n ≤ σ * k) : ¬ Fits (m + k) := by
  simp only [Fits] at *
  rcases hσ with rfl | rfl <;> omega

/-- A term with others of its exponent has a partner it can be added to, if the sum of all of them
fits. -/
lemma exists_partner {a b : Term} {ts : List Term} (hb : b ∈ ts) (hbe : b.exponent = a.exponent)
    (hsum : Fits (a.coefficient.toInt + exactSum ts a.exponent)) :
    ∃ u ∈ ts, u.exponent = a.exponent ∧ Fits (a.coefficient.toInt + u.coefficient.toInt) := by
  by_contra hnone
  push Not at hnone
  have ha := fits_toInt a.coefficient
  obtain ⟨σ, hσ, hσa⟩ : ∃ σ : ℤ, (σ = 1 ∨ σ = -1) ∧ 0 ≤ σ * a.coefficient.toInt := by
    rcases Int.le_total 0 a.coefficient.toInt with h | h
    · exact ⟨1, .inl rfl, by omega⟩
    · exact ⟨-1, .inr rfl, by omega⟩
  -- every partner overflows to the side of `a`, so the whole sum lies beyond `a + b`
  have hside : ∀ u ∈ ts, u.exponent = a.exponent → 0 ≤ σ * u.coefficient.toInt := by
    intro u hu hue
    exact nonneg_of_not_fits hσ ha (fits_toInt _) hσa (hnone u hu hue)
  have hbeyond := (le_exactSum σ hside).2 b hb hbe
  exact not_fits_of_le hσ ha (fits_toInt _) hσa (hnone b hb hbe) hbeyond hsum

lemma merge_of_fits {ts : List Term} {i j : Fin ts.length} (hne : i ≠ j)
    (hlike : ts[i].Like ts[j])
    (hfits : Fits (ts[i].coefficient.toInt + ts[j].coefficient.toInt)) : ∃ us, Merge ts us := by
  obtain ⟨c, hc⟩ := Term.exists_add_of_fits hlike hfits
  exact ⟨_, i, j, hne, hlike, mergeAt_eq_ok_iff.2 ⟨c, hc, rfl⟩⟩

/-- **A merge is possible** as long as two terms are like, if every sum fits. -/
theorem exists_merge {ts : List Term} (hfits : ∀ e, Fits (exactSum ts e)) (h : ¬ Settled ts) :
    ∃ us, Merge ts us := by
  simp only [Settled, not_forall, not_not] at h
  obtain ⟨i, j, hne, hlike⟩ := h
  by_cases hij : Fits (ts[i].coefficient.toInt + ts[j].coefficient.toInt)
  · exact merge_of_fits hne hlike hij
  have he : ts[j].exponent = ts[i].exponent := (hlike.of_not_fits hij).2.2.symm
  have hmem : ts[j] ∈ ts.eraseIdx i :=
    List.mem_eraseIdx_iff_getElem.2 ⟨j, j.2, fun h => hne (Fin.ext h).symm, rfl⟩
  have hsum : Fits (ts[i].coefficient.toInt + exactSum (ts.eraseIdx i) ts[i].exponent) := by
    have hperm := exactSum_perm (List.getElem_cons_eraseIdx_perm i.2) ts[i].exponent
    simp only [exactSum_cons, Fin.getElem_fin, if_true] at hperm
    exact hperm ▸ hfits ts[i].exponent
  obtain ⟨u, hu, hue, hufits⟩ := exists_partner hmem he hsum
  obtain ⟨k, hk, hki, rfl⟩ := List.mem_eraseIdx_iff_getElem.1 hu
  have hik : i ≠ ⟨k, hk⟩ := fun h => hki (congrArg Fin.val h).symm
  exact merge_of_fits hik (.inr (.inr hue.symm)) hufits

/-- So some run comes to an end. -/
lemma exists_merges_settled {ts : List Term} (hfits : ∀ e, Fits (exactSum ts e)) :
    ∃ us, Merges ts us ∧ Settled us := by
  induction hn : ts.length using Nat.strong_induction_on generalizing ts with
  | _ n ih =>
      by_cases hs : Settled ts
      · exact ⟨ts, Relation.ReflTransGen.refl, hs⟩
      · obtain ⟨us, hmerge⟩ := exists_merge hfits hs
        have hlt : us.length < n := by
          have := length_merge hmerge
          omega
        have hfits' : ∀ e, Fits (exactSum us e) := by
          intro e
          rw [exactSum_merge hmerge]
          exact hfits e
        obtain ⟨vs, hrun, hvs⟩ := ih us.length hlt hfits' rfl
        exact ⟨vs, Relation.ReflTransGen.head hmerge hrun, hvs⟩

/-! ## What a run ends in -/

lemma Term.isGE_compare {a b : Term} :
    (a.compare b).isGE = true ↔ b.simplified.exponent ≤ a.simplified.exponent := by
  rw [Term.compare, Int.isGE_compare, Int64.le_iff_toInt_le]

lemma exactSum_tidy (ts : List Term) (e : Int64) : exactSum (tidy ts) e = exactSum ts e := by
  rw [tidy, exactSum_perm (List.mergeSort_perm _ _), exactSum_filter_isZero]

lemma not_isZero_of_mem_tidy {ts : List Term} {t : Term} (h : t ∈ tidy ts) : ¬ t.IsZero := by
  have hmem := (List.mergeSort_perm _ _).mem_iff.1 h
  simpa using (List.mem_filter.1 hmem).2

/-- The terms left are pairwise unlike, in whatever order they are put. -/
lemma pairwise_not_like_tidy {ts : List Term} (h : Settled ts) :
    (tidy ts).Pairwise fun a b => ¬ a.Like b := by
  have hsymm : ∀ {a b : Term}, ¬ a.Like b → ¬ b.Like a := by
    intro a b hab hba
    rcases hba with hb | ha | he
    · exact hab (.inr (.inl hb))
    · exact hab (.inl ha)
    · exact hab (.inr (.inr he.symm))
  have hts : ts.Pairwise fun a b => ¬ a.Like b := by
    rw [List.pairwise_iff_getElem]
    intro i j hi hj hij
    exact h ⟨i, hi⟩ ⟨j, hj⟩ (Fin.ne_of_lt hij)
  exact ((List.mergeSort_perm _ _).pairwise_iff hsymm).2 (hts.filter _)

lemma pairwise_isGE_tidy (ts : List Term) :
    (tidy ts).Pairwise fun a b => (a.compare b).isGE = true := by
  refine List.pairwise_mergeSort (fun a b c => ?_) (fun a b => ?_) _
  · rw [Term.isGE_compare, Term.isGE_compare, Term.isGE_compare]
    exact fun hab hbc => Int64.le_trans hbc hab
  · rw [Bool.or_eq_true, Term.isGE_compare, Term.isGE_compare]
    exact Int64.le_total _ _

/-- What is left when nothing can be merged is canonical, once zeros are dropped and the rest is
sorted. -/
lemma canonical_tidy {ts : List Term} (h : Settled ts) : Canonical (tidy ts) := by
  refine ⟨fun t ht => not_isZero_of_mem_tidy ht, ?_⟩
  refine ((pairwise_not_like_tidy h).and (pairwise_isGE_tidy ts)).imp_of_mem ?_
  rintro a b ha hb ⟨hlike, hge⟩
  rw [Term.isGE_compare, Term.simplified, Term.simplified, if_neg (not_isZero_of_mem_tidy ha),
    if_neg (not_isZero_of_mem_tidy hb)] at hge
  exact Int64.lt_of_le_of_ne hge fun he => hlike (.inr (.inr he.symm))

/-- Every merge takes a term away, so merging cannot go on forever. -/
lemma exists_not_merge (f : ℕ → List Term) : ∃ n, ¬ Merge (f n) (f (n + 1)) := by
  by_contra hnone
  push Not at hnone
  have hlen : ∀ n, (f n).length + n = (f 0).length := by
    intro n
    induction n with
    | zero => rfl
    | succ n ih =>
        have := length_merge (hnone n)
        omega
  have := hlen ((f 0).length + 1)
  omega

/-- **Merging computes the canonical form.**  A run that comes to an end without an overflow ends
in the terms of the canonical form, whatever was merged with what, up to zeros and order.  Nothing
but an overflow stops a run while two terms are like, no run goes on forever, and the canonical
form exists exactly if some run comes to its end. -/
theorem canonicalForm_merging (ts : List Term) :
    (∀ us, Merges ts us → Settled us → canonicalForm ts = .ok (tidy us))
    ∧ (∀ us, Merges ts us → ∀ i j : Fin us.length, i ≠ j → us[i].Like us[j] →
        (∃ vs, Merge us vs ∧ mergeAt us i j = .ok vs)
          ∨ mergeAt us i j = .error (.coefficientOverflow us[i] us[j]))
    ∧ (∀ run : ℕ → List Term, run 0 = ts → ∃ n, ¬ Merge (run n) (run (n + 1)))
    ∧ ((∃ r, canonicalForm ts = .ok r) ↔ ∃ us, Merges ts us ∧ Settled us) := by
  have hrun : ∀ us, Merges ts us → Settled us → canonicalForm ts = .ok (tidy us) := by
    intro us hmerges hsettled
    rw [canonicalForm_eq_ok_iff]
    refine ⟨canonical_tidy hsettled, fun e => ?_⟩
    rw [exactSum_tidy, exactSum_merges hmerges]
  refine ⟨hrun, fun us _ i j hne hlike => ?_, fun run _ => exists_not_merge run, ?_⟩
  · refine (mergeAt_eq_ok_or_overflow hlike).imp_left ?_
    rintro ⟨vs, hvs⟩
    exact ⟨vs, ⟨i, j, hne, hlike, hvs⟩, hvs⟩
  · rw [exists_canonicalForm_iff]
    constructor
    · exact exists_merges_settled
    · rintro ⟨us, hmerges, hsettled⟩
      rw [← exists_canonicalForm_iff]
      exact ⟨tidy us, hrun us hmerges hsettled⟩

/-- One choice overflows at once and another goes through, over a zero with an exponent and a
cancelled term. -/
theorem canonicalForm_merging_detour :
    let ts : List Term := [⟨9223372036854775807, 1⟩, ⟨1, 1⟩, ⟨-1, 1⟩, ⟨0, 5⟩]
    let us : List Term := [⟨9223372036854775807, 1⟩]
    mergeAt ts 0 1 = .error (.coefficientOverflow ⟨9223372036854775807, 1⟩ ⟨1, 1⟩)
      ∧ Merges ts us ∧ Settled us ∧ canonicalForm ts = .ok (tidy us) := by
  intro ts us
  have h₁ : Merge ts [⟨9223372036854775807, 1⟩, ⟨0, 1⟩, ⟨0, 5⟩] :=
    ⟨1, 2, by decide, by decide, by decide⟩
  have h₂ : Merge [⟨9223372036854775807, 1⟩, ⟨0, 1⟩, ⟨0, 5⟩] [⟨9223372036854775807, 1⟩, ⟨0, 0⟩] :=
    ⟨1, 2, by decide, by decide, by decide⟩
  have h₃ : Merge [⟨9223372036854775807, 1⟩, ⟨0, 0⟩] us := ⟨0, 1, by decide, by decide, by decide⟩
  have hmerges : Merges ts us := ((Relation.ReflTransGen.single h₁).tail h₂).tail h₃
  have hsettled : Settled us := by
    intro i j hne
    have hi : (i : ℕ) < 1 := i.2
    have hj : (j : ℕ) < 1 := j.2
    exact absurd (Fin.ext (by omega)) hne
  exact ⟨by decide, hmerges, hsettled, (canonicalForm_merging ts).1 us hmerges hsettled⟩

end LaurentCalc
