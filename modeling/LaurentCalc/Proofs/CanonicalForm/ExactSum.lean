import LaurentCalc.CanonicalForm
import Mathlib.Algebra.BigOperators.Group.List.Basic
import Mathlib.Algebra.Ring.Int.Defs
import Mathlib.Data.List.Induction
import Mathlib.Tactic.Lemma

/-!
# The exact sums behind a canonical form

`canonical_of_canonicalForm` says what the result looks like, not what it means.  Here the meaning
of a list of terms is the function that gives, at each exponent, the sum of its coefficients as an
unbounded integer.  The canonical form has the same meaning, exists exactly when all the sums fit,
and is the only canonical list that means this.

* `exactSum` — the meaning.
* `groupAt`, `groupAt_place` — the groups seen as a partial function of the exponent: placing a
  term changes one value of it.
* `LikeGroup.collect`, **`groupAt_groups`** — so every group is made of its own terms alone, however
  they are interleaved with others.
* **`canonicalForm_eq_ok_iff`** — the canonical form is the canonical list of the same sums.
* **`exists_canonicalForm_iff`** — and it exists exactly if every sum fits.
-/

namespace LaurentCalc

/-! ## The meaning of a list of terms -/

/-- The sum of the coefficients at the exponent `e`, without any bound. -/
def exactSum (ts : List Term) (e : Int64) : Int :=
  ((ts.filter fun t => t.exponent = e).map fun t => t.coefficient.toInt).sum

@[simp] lemma exactSum_nil (e : Int64) : exactSum [] e = 0 := rfl

lemma exactSum_cons (t : Term) (ts : List Term) (e : Int64) :
    exactSum (t :: ts) e = (if t.exponent = e then t.coefficient.toInt else 0) + exactSum ts e := by
  by_cases h : t.exponent = e <;> simp [exactSum, h]

lemma exactSum_append (ts us : List Term) (e : Int64) :
    exactSum (ts ++ us) e = exactSum ts e + exactSum us e := by
  simp [exactSum]

lemma exactSum_perm {ts us : List Term} (h : ts.Perm us) (e : Int64) :
    exactSum ts e = exactSum us e :=
  ((h.filter _).map _).sum_eq

/-- Zero terms mean nothing, whatever exponent they carry. -/
lemma exactSum_filter_isZero (ts : List Term) (e : Int64) :
    exactSum (ts.filter fun t => ¬ t.IsZero) e = exactSum ts e := by
  induction ts with
  | nil => rfl
  | cons t ts ih =>
      by_cases hz : t.IsZero
      · have hc : t.coefficient.toInt = 0 := toInt_eq_zero_iff.2 hz
        simp [hz, exactSum_cons, hc, ← ih]
      · simp [hz, exactSum_cons, ← ih]

lemma exactSum_eq_zero {ts : List Term} {e : Int64} (h : ∀ t ∈ ts, t.exponent ≠ e) :
    exactSum ts e = 0 := by
  have hnone : ts.filter (fun t => t.exponent = e) = [] := by
    rw [List.filter_eq_nil_iff]
    intro t ht
    simpa using h t ht
  simp [exactSum, hnone]

/-! ## Groups as a function of the exponent -/

def groupAt (gs : List LikeGroup) (e : Int64) : Option LikeGroup :=
  gs.find? fun g => g.exponent = e

/-- What becomes of a group, or of the lack of one, when a term of its exponent comes. -/
def LikeGroup.extend : Option LikeGroup → Term → LikeGroup
  | none, t => .single t
  | some g, t => g.absorb t

lemma groupAt_cons (g : LikeGroup) (gs : List LikeGroup) (e : Int64) :
    groupAt (g :: gs) e = if g.exponent = e then some g else groupAt gs e := by
  by_cases h : g.exponent = e <;> simp [groupAt, h]

lemma groupAt_eq_none {gs : List LikeGroup} {e : Int64} (h : ∀ g ∈ gs, g.exponent ≠ e) :
    groupAt gs e = none := by
  simpa [groupAt] using h

/-- In ordered groups every group is the one of its exponent. -/
lemma groupAt_of_mem {gs : List LikeGroup} (ho : Ordered gs) {g : LikeGroup} (hg : g ∈ gs) :
    groupAt gs g.exponent = some g := by
  induction ho with
  | nil => simp at hg
  | @cons h gs hlt _ ih =>
      rw [groupAt_cons]
      rcases List.mem_cons.1 hg with rfl | hg
      · rw [if_pos rfl]
      · rw [if_neg (Int64.ne_of_lt (hlt g hg)).symm, ih hg]

/-- Placing a term changes the group of its exponent and no other. -/
lemma groupAt_place (t : Term) {gs : List LikeGroup} (ho : Ordered gs) (e : Int64) :
    groupAt (place t gs) e
      = if t.exponent = e then some (.extend (groupAt gs e) t) else groupAt gs e := by
  induction ho with
  | nil => rw [place, groupAt_cons]; rfl
  | @cons g gs hg _ ih =>
      rw [place]
      by_cases heq : t.exponent = g.exponent
      · rw [if_pos heq, heq, groupAt_cons, groupAt_cons]
        show (if g.exponent = e then _ else _) = _
        split_ifs <;> rfl
      · rw [if_neg heq]
        by_cases hlt : g.exponent < t.exponent
        · rw [if_pos hlt, groupAt_cons]
          -- every group is below the term, so its exponent has none yet
          have hnone : groupAt (g :: gs) t.exponent = none := by
            refine groupAt_eq_none fun h hm => ?_
            rcases List.mem_cons.1 hm with rfl | hm
            · exact Int64.ne_of_lt hlt
            · exact Int64.ne_of_lt (Int64.lt_trans (hg h hm) hlt)
          show (if t.exponent = e then _ else _) = _
          split_ifs with he
          · rw [← he, hnone]; rfl
          · rfl
        · rw [if_neg hlt, groupAt_cons, groupAt_cons, ih]
          split_ifs with hge hte
          · exact absurd (hte.trans hge.symm) heq
          · rfl
          · rfl
          · rfl

lemma groups_append_singleton (ts : List Term) (t : Term) :
    groups (ts ++ [t]) = if t.IsZero then groups ts else place t (groups ts) := by
  by_cases hz : t.IsZero <;> simp [groups, List.filter_append, hz]

/-- The group that the terms of one exponent make, in the order they come. -/
def LikeGroup.collect (us : List Term) : Option LikeGroup :=
  us.foldl (fun o t => some (LikeGroup.extend o t)) none

lemma LikeGroup.collect_append_singleton (us : List Term) (t : Term) :
    collect (us ++ [t]) = some (extend (collect us) t) := by
  simp [collect, List.foldl_append]

/-- **Groups do not mix.**  The group of an exponent is what the nonzero terms of that exponent
make on their own; the terms in between leave no trace in it. -/
theorem groupAt_groups (ts : List Term) (e : Int64) :
    groupAt (groups ts) e = LikeGroup.collect (ts.filter fun t => ¬ t.IsZero ∧ t.exponent = e) := by
  induction ts using List.reverseRecOn with
  | nil => rfl
  | append_singleton ts t ih =>
      rw [groups_append_singleton, List.filter_append]
      by_cases hz : t.IsZero
      · simp [hz, ih]
      · rw [if_neg hz, groupAt_place t (ordered_groups ts), ih]
        by_cases he : t.exponent = e
        · simp [hz, he, LikeGroup.collect_append_singleton]
        · simp [he]

/-- The sum kept in a group is the exact sum of its terms. -/
lemma LikeGroup.sum_collect (us : List Term) :
    (collect us).elim 0 sum = (us.map fun t => t.coefficient.toInt).sum := by
  induction us using List.reverseRecOn with
  | nil => rfl
  | append_singleton us t ih =>
      rw [collect_append_singleton, List.map_append, List.sum_append, ← ih]
      cases collect us with
      | none => simp [extend, single]
      | some g => simp [extend, absorb]

lemma sum_groupAt_groups (ts : List Term) (e : Int64) :
    (groupAt (groups ts) e).elim 0 LikeGroup.sum = exactSum ts e := by
  rw [groupAt_groups, LikeGroup.sum_collect, ← exactSum_filter_isZero, exactSum, List.filter_filter]
  congr 3
  funext t
  simp [and_comm]

lemma sum_of_mem_groups {ts : List Term} {g : LikeGroup} (hg : g ∈ groups ts) :
    g.sum = exactSum ts g.exponent := by
  rw [← sum_groupAt_groups, groupAt_of_mem (ordered_groups ts) hg, Option.elim_some]

/-! ## Settling -/

lemma LikeGroup.settle_eq_ok {g : LikeGroup} {c : Int64} (h : c.toInt = g.sum) :
    g.settle = .ok (if c = 0 then none else some ⟨c, g.exponent⟩) := by
  rw [settle, int64?_eq_some_iff.2 h]

lemma LikeGroup.settle_eq_error {g : LikeGroup} (h : ¬ Fits g.sum) :
    g.settle = .error (.coefficientOverflow g.first g.last) := by
  rw [settle, int64?_eq_none_iff.2 h]

/-- A group settles when its sum fits, and then to a term of that sum. -/
lemma LikeGroup.exists_settle_iff {g : LikeGroup} : (∃ o, g.settle = .ok o) ↔ Fits g.sum := by
  constructor
  · rintro ⟨o, ho⟩
    by_contra hfits
    rw [settle_eq_error hfits] at ho
    cases ho
  · intro hfits
    exact ⟨_, settle_eq_ok hfits.toInt_ofInt⟩

lemma LikeGroup.exactSum_settle {g : LikeGroup} {o : Option Term} (h : g.settle = .ok o)
    (e : Int64) : exactSum o.toList e = if g.exponent = e then g.sum else 0 := by
  have hfits : Fits g.sum := exists_settle_iff.1 ⟨o, h⟩
  have hc : (Int64.ofInt g.sum).toInt = g.sum := hfits.toInt_ofInt
  rw [settle_eq_ok hc] at h
  cases h
  by_cases hz : Int64.ofInt g.sum = 0
  · have hsum : g.sum = 0 := by rw [← hc, hz]; rfl
    simp [hsum]
  · rw [if_neg hz, Option.toList_some, exactSum_cons, hc, exactSum_nil, add_zero]

lemma exists_settleAll_iff {gs : List LikeGroup} :
    (∃ r, settleAll gs = .ok r) ↔ ∀ g ∈ gs, Fits g.sum := by
  induction gs with
  | nil => simp [settleAll]
  | cons g gs ih =>
      rw [List.forall_mem_cons, ← ih, ← LikeGroup.exists_settle_iff]
      constructor
      · rintro ⟨r, hr⟩
        obtain ⟨o, ts, ho, hts, -⟩ := settleAll_cons_eq_ok.1 hr
        exact ⟨⟨o, ho⟩, ts, hts⟩
      · rintro ⟨⟨o, ho⟩, ts, hts⟩
        exact ⟨o.toList ++ ts, settleAll_cons_eq_ok.2 ⟨o, ts, ho, hts, rfl⟩⟩

/-- Settled groups mean the sums they kept. -/
lemma exactSum_settleAll {gs : List LikeGroup} (ho : Ordered gs) {r : List Term}
    (h : settleAll gs = .ok r) (e : Int64) :
    exactSum r e = (groupAt gs e).elim 0 LikeGroup.sum := by
  induction ho generalizing r with
  | nil => cases h; rfl
  | @cons g gs hg _ ih =>
      obtain ⟨o, ts, hgo, hts, rfl⟩ := settleAll_cons_eq_ok.1 h
      rw [exactSum_append, LikeGroup.exactSum_settle hgo, ih hts, groupAt_cons]
      split_ifs with he
      · have hnone : groupAt gs e = none :=
          groupAt_eq_none fun k hk => he ▸ Int64.ne_of_lt (hg k hk)
        simp [hnone]
      · simp

/-! ## Canonical lists are known by their sums -/

/-- The exponents in front of a term are higher, and those behind it lower. -/
lemma Canonical.around {before after : List Term} {t : Term}
    (h : Canonical (before ++ t :: after)) :
    (∀ u ∈ before, t.exponent < u.exponent) ∧ ∀ u ∈ after, u.exponent < t.exponent := by
  have hpairwise := h.pairwise
  rw [List.pairwise_append, List.pairwise_cons] at hpairwise
  exact ⟨fun u hu => hpairwise.2.2 u hu t List.mem_cons_self, hpairwise.2.1.1⟩

lemma Canonical.nodup {ts : List Term} (h : Canonical ts) : ts.Nodup := by
  refine h.pairwise.imp ?_
  rintro a b hlt rfl
  exact Int64.lt_irrefl hlt

/-- No exponent occurs twice, so the sum at the exponent of a term is its coefficient. -/
lemma exactSum_of_mem {ts : List Term} (h : ts.Pairwise fun a b => b.exponent < a.exponent)
    {t : Term} (ht : t ∈ ts) : exactSum ts t.exponent = t.coefficient.toInt := by
  induction h with
  | nil => simp at ht
  | @cons a ts ha _ ih =>
      rw [exactSum_cons]
      rcases List.mem_cons.1 ht with rfl | ht
      · have hzero : exactSum ts t.exponent = 0 :=
          exactSum_eq_zero fun u hu => Int64.ne_of_lt (ha u hu)
        simp [hzero]
      · rw [if_neg (Int64.ne_of_lt (ha t ht)).symm, ih ht, zero_add]

/-- In a canonical list a term has its exponent to itself. -/
lemma Canonical.eq_of_exponent {ts : List Term} (h : Canonical ts) {t u : Term} (ht : t ∈ ts)
    (hu : u ∈ ts) (he : u.exponent = t.exponent) : u = t := by
  have hc : u.coefficient = t.coefficient := by
    rw [← Int64.toInt_inj, ← exactSum_of_mem h.pairwise hu, ← exactSum_of_mem h.pairwise ht, he]
  cases u
  cases t
  simp_all

lemma Canonical.exists_mem_iff {ts : List Term} (h : Canonical ts) (e : Int64) :
    (∃ t ∈ ts, t.exponent = e) ↔ exactSum ts e ≠ 0 := by
  constructor
  · rintro ⟨t, ht, rfl⟩
    rw [exactSum_of_mem h.pairwise ht]
    exact fun hc => h.nonzero t ht (toInt_eq_zero_iff.1 hc)
  · intro hne
    by_contra hnone
    push Not at hnone
    exact hne (exactSum_eq_zero hnone)

/-- What occurs in a canonical list can be told from its sums. -/
lemma Canonical.mem_iff {ts : List Term} (h : Canonical ts) (t : Term) :
    t ∈ ts ↔ ¬ t.IsZero ∧ exactSum ts t.exponent = t.coefficient.toInt := by
  constructor
  · exact fun ht => ⟨h.nonzero t ht, exactSum_of_mem h.pairwise ht⟩
  · rintro ⟨hz, hsum⟩
    have hne : exactSum ts t.exponent ≠ 0 := by
      rw [hsum]
      exact fun hc => hz (toInt_eq_zero_iff.1 hc)
    obtain ⟨u, hu, he⟩ := (h.exists_mem_iff t.exponent).2 hne
    have hc : u.coefficient.toInt = t.coefficient.toInt := by
      rw [← hsum, ← he, exactSum_of_mem h.pairwise hu]
    have htu : u = t := by
      cases u
      cases t
      simp_all [Int64.toInt_inj]
    exact htu ▸ hu

/-- **Canonical lists of equal sums are equal.** -/
theorem Canonical.eq_of_exactSum {ts us : List Term} (ht : Canonical ts) (hu : Canonical us)
    (h : ∀ e, exactSum ts e = exactSum us e) : ts = us := by
  have hperm : ts.Perm us := by
    refine (List.perm_ext_iff_of_nodup ht.nodup hu.nodup).2 fun t => ?_
    rw [ht.mem_iff, hu.mem_iff, h]
  refine hperm.eq_of_pairwise (fun a b _ _ hab hba => ?_) ht.pairwise hu.pairwise
  exact absurd (Int64.lt_trans hab hba) Int64.lt_irrefl

/-- Every sum of a canonical list is a coefficient, or zero, so it fits. -/
lemma Canonical.fits_exactSum {ts : List Term} (h : Canonical ts) (e : Int64) :
    Fits (exactSum ts e) := by
  by_cases hne : exactSum ts e = 0
  · rw [hne]; decide
  · obtain ⟨t, ht, rfl⟩ := (h.exists_mem_iff e).2 hne
    rw [exactSum_of_mem h.pairwise ht]
    exact fits_toInt _

/-! ## The canonical form -/

/-- **The canonical form exists exactly if every sum fits.**  What happens to a sum on its way
does not matter. -/
theorem exists_canonicalForm_iff (ts : List Term) :
    (∃ r, canonicalForm ts = .ok r) ↔ ∀ e, Fits (exactSum ts e) := by
  rw [canonicalForm, exists_settleAll_iff]
  constructor
  · intro h e
    rw [← sum_groupAt_groups]
    cases hg : groupAt (groups ts) e with
    | none => simp only [Option.elim_none]; decide
    | some g => exact h g (List.mem_of_find?_eq_some hg)
  · intro h g hg
    exact sum_of_mem_groups hg ▸ h g.exponent

lemma exactSum_canonicalForm {ts r : List Term} (h : canonicalForm ts = .ok r) (e : Int64) :
    exactSum r e = exactSum ts e := by
  rw [exactSum_settleAll (ordered_groups ts) h, sum_groupAt_groups]

/-- **The canonical form is the canonical list of the same sums.** -/
theorem canonicalForm_eq_ok_iff (ts r : List Term) :
    canonicalForm ts = .ok r ↔ Canonical r ∧ ∀ e, exactSum r e = exactSum ts e := by
  constructor
  · exact fun h => ⟨canonical_of_canonicalForm h, exactSum_canonicalForm h⟩
  · rintro ⟨hr, hsum⟩
    have hfits : ∀ e, Fits (exactSum ts e) := fun e => hsum e ▸ hr.fits_exactSum e
    obtain ⟨r', hr'⟩ := (exists_canonicalForm_iff ts).2 hfits
    have heq : r' = r := (canonical_of_canonicalForm hr').eq_of_exactSum hr fun e => by
      rw [exactSum_canonicalForm hr', hsum]
    rw [hr', heq]

/-- A list is its own canonical form if it is canonical, and not otherwise. -/
theorem canonicalForm_self_iff (ts : List Term) : canonicalForm ts = .ok ts ↔ Canonical ts := by
  simp [canonicalForm_eq_ok_iff]

/-- **Exactness.**  The canonical form exists exactly if the sum at every exponent fits.  It is
canonical, it has a term at an exponent exactly if the sum there is not zero, the coefficient is
that sum, and no other canonical list has these sums.  So the lists that are their own canonical
form are the canonical ones. -/
theorem canonicalForm_exact (ts : List Term) :
    ((∃ r, canonicalForm ts = .ok r) ↔ ∀ e, Fits (exactSum ts e))
    ∧ (∀ r, canonicalForm ts = .ok r →
        Canonical r
        ∧ (∀ e, (∃ t ∈ r, t.exponent = e) ↔ exactSum ts e ≠ 0)
        ∧ (∀ t ∈ r, t.coefficient.toInt = exactSum ts t.exponent)
        ∧ ∀ r', Canonical r' → (∀ e, exactSum r' e = exactSum ts e) → r' = r)
    ∧ (canonicalForm ts = .ok ts ↔ Canonical ts) := by
  refine ⟨exists_canonicalForm_iff ts, fun r hr => ?_, canonicalForm_self_iff ts⟩
  obtain ⟨hcan, hsum⟩ := (canonicalForm_eq_ok_iff ts r).1 hr
  refine ⟨hcan, fun e => ?_, fun t ht => ?_, fun r' hcan' hsum' => ?_⟩
  · rw [← hsum e]
    exact hcan.exists_mem_iff e
  · rw [← hsum, exactSum_of_mem hcan.pairwise ht]
  · exact hcan'.eq_of_exactSum hcan fun e => (hsum' e).trans (hsum e).symm

/-- A sum that leaves the range and comes back, a cancellation, and a zero with an exponent. -/
theorem canonicalForm_exact_overshoot :
    let ts : List Term := [⟨9223372036854775807, 1⟩, ⟨0, 7⟩, ⟨4, -2⟩, ⟨1, 1⟩, ⟨-4, -2⟩, ⟨-1, 1⟩]
    let r : List Term := [⟨9223372036854775807, 1⟩]
    canonicalForm ts = .ok r
      ∧ Canonical r
      ∧ (∀ e, (∃ t ∈ r, t.exponent = e) ↔ exactSum ts e ≠ 0)
      ∧ (∀ t ∈ r, t.coefficient.toInt = exactSum ts t.exponent)
      ∧ ∀ r', Canonical r' → (∀ e, exactSum r' e = exactSum ts e) → r' = r := by
  intro ts r
  have hr : canonicalForm ts = .ok r := rfl
  exact ⟨hr, (canonicalForm_exact ts).2.1 r hr⟩

end LaurentCalc
