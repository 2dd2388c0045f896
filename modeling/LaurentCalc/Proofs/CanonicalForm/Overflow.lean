import LaurentCalc.Proofs.CanonicalForm.ExactSum
import Mathlib.Data.List.Nodup

/-!
# The overflow that is reported

Several sums of a list can leave the range at once, but only one of them is reported: that of the
highest exponent, by the first and the last nonzero term that have it.  So the report, too, can be
told from the list and its exact sums alone, without the groups.

There are two orders in this, and only one of them is that of the list.  In another order the two
terms may be other ones; the exponent stays, and zero terms have no say in either.

* `likeTerms` — the nonzero terms of one exponent, in the order they come.
* `HighestMisfit` — the highest exponent at which something does not fit.
* **`settleAll_eq_error_iff`** — of ordered groups, the highest one out of range is reported.
* **`canonicalForm_eq_error_iff`** — the report in terms of the list.
* `Ends` — where the two terms of a report stand.
* **`canonicalForm_overflow`** — the report of a list, and of every other order of it.
-/

namespace LaurentCalc

/-! ## The terms of one exponent -/

/-- The nonzero terms with the exponent `e`. -/
def likeTerms (ts : List Term) (e : Int64) : List Term :=
  ts.filter fun t => ¬ t.IsZero ∧ t.exponent = e

lemma likeTerms_append (ts us : List Term) (e : Int64) :
    likeTerms (ts ++ us) e = likeTerms ts e ++ likeTerms us e := by
  simp [likeTerms]

lemma Canonical.likeTerms_of_mem {ts : List Term} (h : Canonical ts) {t : Term} (ht : t ∈ ts) :
    likeTerms ts t.exponent = [t] := by
  have hfilter : likeTerms ts t.exponent = ts.filter (· = t) := by
    refine List.filter_congr fun u hu => ?_
    rw [decide_eq_decide]
    constructor
    · exact fun hlike => h.eq_of_exponent ht hu hlike.2
    · rintro rfl
      exact ⟨h.1 u hu, rfl⟩
  rw [hfilter, List.filter_eq, List.count_eq_one_of_mem h.nodup ht]
  rfl

/-! ## The ends of a group -/

namespace LikeGroup

lemma first_collect (us : List Term) : (collect us).map first = us.head? := by
  induction us using List.reverseRecOn with
  | nil => rfl
  | append_singleton us t ih =>
      rw [collect_append_singleton, List.head?_append, ← ih]
      cases collect us <;> rfl

lemma last_collect (us : List Term) : (collect us).map last = us.getLast? := by
  cases us using List.reverseRecOn with
  | nil => rfl
  | append_singleton us t =>
      rw [collect_append_singleton, List.getLast?_concat]
      cases collect us <;> rfl

lemma settle_eq_error_iff {g : LikeGroup} {fault : Fault} :
    g.settle = .error fault ↔ ¬ Fits g.sum ∧ fault = .coefficientOverflow g.first g.last := by
  by_cases h : Fits g.sum
  · obtain ⟨o, ho⟩ := exists_settle_iff.2 h
    simp [ho, h]
  · simp [settle_eq_error h, h, eq_comm]

end LikeGroup

/-! ## The report -/

lemma settleAll_cons_eq_error {g : LikeGroup} {gs : List LikeGroup} {fault : Fault} :
    settleAll (g :: gs) = .error fault
      ↔ g.settle = .error fault ∨ Fits g.sum ∧ settleAll gs = .error fault := by
  rw [settleAll, ← LikeGroup.exists_settle_iff]
  cases g.settle with
  | error fault' => simp [bind, Except.bind]
  | ok o => cases settleAll gs <;> simp [bind, Except.bind, pure, Except.pure]

/-- **The highest group out of range is reported.** -/
theorem settleAll_eq_error_iff {gs : List LikeGroup} (ho : Ordered gs) (fault : Fault) :
    settleAll gs = .error fault
      ↔ ∃ g ∈ gs, ¬ Fits g.sum ∧ (∀ h ∈ gs, g.exponent < h.exponent → Fits h.sum)
        ∧ fault = .coefficientOverflow g.first g.last := by
  induction ho with
  | nil => simp [settleAll]
  | @cons g gs hg _ ih =>
      rw [settleAll_cons_eq_error, LikeGroup.settle_eq_error_iff, ih]
      constructor
      · rintro (⟨hunfit, hfault⟩ | ⟨hfits, k, hk, hunfit, habove, hfault⟩)
        · refine ⟨g, List.mem_cons_self, hunfit, fun h hh hlt => ?_, hfault⟩
          rcases List.mem_cons.1 hh with rfl | hh
          · exact absurd hlt Int64.lt_irrefl
          · exact absurd (Int64.lt_trans hlt (hg h hh)) Int64.lt_irrefl
        · refine ⟨k, List.mem_cons_of_mem g hk, hunfit, fun h hh hlt => ?_, hfault⟩
          rcases List.mem_cons.1 hh with rfl | hh
          · exact hfits
          · exact habove h hh hlt
      · rintro ⟨k, hk, hunfit, habove, hfault⟩
        rcases List.mem_cons.1 hk with rfl | hk
        · exact .inl ⟨hunfit, hfault⟩
        · exact .inr ⟨habove g List.mem_cons_self (hg k hk), k, hk, hunfit,
            fun h hh => habove h (List.mem_cons_of_mem g hh), hfault⟩

/-- The value at `e` does not fit, and `e` is the highest exponent of which this is true. -/
def HighestMisfit (sum : Int64 → ℤ) (e : Int64) : Prop :=
  ¬ Fits (sum e) ∧ ∀ e', e < e' → Fits (sum e')

/-- What the group of an exponent says about the terms of that exponent. -/
lemma of_groupAt_groups {ts : List Term} {e : Int64} {g : LikeGroup}
    (hg : groupAt (groups ts) e = some g) :
    g.exponent = e ∧ g.sum = exactSum ts e ∧ (likeTerms ts e).head? = some g.first
      ∧ (likeTerms ts e).getLast? = some g.last := by
  have hsum := sum_groupAt_groups ts e
  have hcollect := groupAt_groups ts e
  rw [hg] at hsum hcollect
  rw [likeTerms, ← LikeGroup.first_collect, ← LikeGroup.last_collect, ← hcollect]
  exact ⟨by simpa using List.find?_some hg, hsum, rfl, rfl⟩

/-- Where there is no group there is nothing that could overflow. -/
lemma fits_of_groupAt_eq_none {ts : List Term} {e : Int64} (hg : groupAt (groups ts) e = none) :
    Fits (exactSum ts e) := by
  rw [← sum_groupAt_groups, hg]
  decide

/-- A group is out of range with none such above it exactly if its exponent is the highest whose
sum does not fit. -/
lemma highestMisfit_iff {ts : List Term} {e : Int64} :
    HighestMisfit (exactSum ts) e ↔ ∃ g ∈ groups ts, g.exponent = e ∧ ¬ Fits g.sum
      ∧ ∀ h ∈ groups ts, g.exponent < h.exponent → Fits h.sum := by
  have hsum : ∀ g ∈ groups ts, g.sum = exactSum ts g.exponent := fun g hg => sum_of_mem_groups hg
  constructor
  · rintro ⟨hunfit, habove⟩
    cases hg : groupAt (groups ts) e with
    | none => exact absurd (fits_of_groupAt_eq_none hg) hunfit
    | some g =>
        have hmem := List.mem_of_find?_eq_some hg
        obtain ⟨rfl, -⟩ := of_groupAt_groups hg
        exact ⟨g, hmem, rfl, hsum g hmem ▸ hunfit, fun h hh hlt => hsum h hh ▸ habove _ hlt⟩
  · rintro ⟨g, hg, rfl, hunfit, habove⟩
    refine ⟨hsum g hg ▸ hunfit, fun e' hlt => ?_⟩
    cases hg' : groupAt (groups ts) e' with
    | none => exact fits_of_groupAt_eq_none hg'
    | some h =>
        have hmem := List.mem_of_find?_eq_some hg'
        obtain ⟨rfl, -⟩ := of_groupAt_groups hg'
        exact hsum h hmem ▸ habove h hmem hlt

/-- **The report** names the first and the last nonzero term of the highest exponent whose sum
does not fit; and there is a report only if there is such an exponent. -/
theorem canonicalForm_eq_error_iff (ts : List Term) (fault : Fault) :
    canonicalForm ts = .error fault
      ↔ ∃ e, HighestMisfit (exactSum ts) e ∧ ∃ a b, (likeTerms ts e).head? = some a
        ∧ (likeTerms ts e).getLast? = some b ∧ fault = .coefficientOverflow a b := by
  have hends : ∀ g ∈ groups ts, (likeTerms ts g.exponent).head? = some g.first
      ∧ (likeTerms ts g.exponent).getLast? = some g.last := fun g hg =>
    (of_groupAt_groups (groupAt_of_mem (ordered_groups ts) hg)).2.2
  rw [canonicalForm, settleAll_eq_error_iff (ordered_groups ts)]
  simp only [highestMisfit_iff]
  constructor
  · rintro ⟨g, hg, hunfit, habove, hfault⟩
    obtain ⟨hfirst, hlast⟩ := hends g hg
    exact ⟨g.exponent, ⟨g, hg, rfl, hunfit, habove⟩, g.first, g.last, hfirst, hlast, hfault⟩
  · rintro ⟨_, ⟨g, hg, rfl, hunfit, habove⟩, a, b, ha, hb, hfault⟩
    obtain ⟨hfirst, hlast⟩ := hends g hg
    rw [hfirst, Option.some.injEq] at ha
    rw [hlast, Option.some.injEq] at hb
    exact ⟨g, hg, hunfit, habove, ha ▸ hb ▸ hfault⟩

/-! ## Where the reported terms stand -/

/-- `a` is the first and `b` the last nonzero term with the exponent `e`, and they stand at two
positions. -/
def Ends (ts : List Term) (e : Int64) (a b : Term) : Prop :=
  ∃ before between after, ts = before ++ a :: (between ++ b :: after)
    ∧ (¬ a.IsZero ∧ a.exponent = e) ∧ (¬ b.IsZero ∧ b.exponent = e)
    ∧ ∀ t ∈ before ++ after, ¬ t.IsZero → t.exponent ≠ e

lemma ends_of_likeTerms {ts us : List Term} {e : Int64} {a b : Term}
    (h : likeTerms ts e = a :: (us ++ [b])) : Ends ts e a b := by
  obtain ⟨before, rest, rfl, hbefore, ha, hrest⟩ := List.filter_eq_cons_iff.1 h
  obtain ⟨between, last, rfl, -, hlast⟩ := List.filter_eq_append_iff.1 hrest
  obtain ⟨gap, after, rfl, -, hb, hafter⟩ := List.filter_eq_cons_iff.1 hlast
  refine ⟨before, between ++ gap, after, by simp, by simpa using ha, by simpa using hb, ?_⟩
  -- in between there may be more terms of this exponent, but not in front and not behind
  intro t ht hz
  rcases List.mem_append.1 ht with ht | ht
  · simpa [hz] using hbefore t ht
  · simpa [hz] using List.filter_eq_nil_iff.1 hafter t ht

lemma exactSum_eq_sum_likeTerms (ts : List Term) (e : Int64) :
    exactSum ts e = ((likeTerms ts e).map fun t => t.coefficient.toInt).sum := by
  rw [← sum_groupAt_groups, groupAt_groups, LikeGroup.sum_collect, likeTerms]

/-- A single term fits, so it takes two of them to overflow. -/
lemma exists_likeTerms_of_misfit {ts : List Term} {e : Int64} (h : ¬ Fits (exactSum ts e)) :
    ∃ a us b, likeTerms ts e = a :: (us ++ [b]) := by
  rw [exactSum_eq_sum_likeTerms] at h
  cases hlike : likeTerms ts e with
  | nil =>
      rw [hlike] at h
      exact absurd (by decide) h
  | cons a us =>
      cases us using List.reverseRecOn with
      | nil =>
          rw [hlike, List.map_singleton, List.sum_singleton] at h
          exact absurd (fits_toInt _) h
      | append_singleton us b => exact ⟨a, us, b, rfl⟩

/-- If something does not fit, there is a highest exponent at which it does not. -/
lemma exists_highestMisfit {ts : List Term} (h : ∃ e, ¬ Fits (exactSum ts e)) :
    ∃ e, HighestMisfit (exactSum ts) e := by
  cases hform : canonicalForm ts with
  | ok r =>
      obtain ⟨e, he⟩ := h
      exact absurd ((exists_canonicalForm_iff ts).1 ⟨r, hform⟩ e) he
  | error fault =>
      obtain ⟨e, he, -⟩ := (canonicalForm_eq_error_iff ts fault).1 hform
      exact ⟨e, he⟩

lemma exists_report {ts : List Term} {e : Int64} (h : HighestMisfit (exactSum ts) e) :
    ∃ a b, Ends ts e a b ∧ canonicalForm ts = .error (.coefficientOverflow a b) := by
  obtain ⟨a, us, b, hlike⟩ := exists_likeTerms_of_misfit h.1
  have hfirst : (likeTerms ts e).head? = some a := by rw [hlike, List.head?_cons]
  have hlast : (likeTerms ts e).getLast? = some b := by
    rw [hlike, ← List.cons_append, List.getLast?_concat]
  exact ⟨a, b, ends_of_likeTerms hlike,
    (canonicalForm_eq_error_iff ts _).2 ⟨e, h, a, b, hfirst, hlast, rfl⟩⟩

/-- Neither the order of the terms nor the zeros among them matter to the sums. -/
lemma exactSum_of_perm_filter {ts us : List Term}
    (h : (us.filter fun t => ¬ t.IsZero).Perm (ts.filter fun t => ¬ t.IsZero)) :
    exactSum us = exactSum ts := by
  funext e
  rw [← exactSum_filter_isZero us, exactSum_perm h, exactSum_filter_isZero]

/-- **The report of an overflow.**  If the sum at some exponent does not fit, the report is that of
the highest such exponent.  It names the first and the last nonzero term with this exponent, which
are two terms of the list.  With the terms in any other order, and with zeros put in or left out
anywhere, there is still an overflow, and it is reported for the same exponent. -/
theorem canonicalForm_overflow {ts : List Term} (h : ∃ e, ¬ Fits (exactSum ts e)) :
    ∃ e, HighestMisfit (exactSum ts) e
      ∧ (∃ a b, Ends ts e a b ∧ canonicalForm ts = .error (.coefficientOverflow a b))
      ∧ ∀ us, (us.filter fun t => ¬ t.IsZero).Perm (ts.filter fun t => ¬ t.IsZero) →
        ∃ a b, Ends us e a b ∧ canonicalForm us = .error (.coefficientOverflow a b) := by
  obtain ⟨e, he⟩ := exists_highestMisfit h
  refine ⟨e, he, exists_report he, fun us hus => exists_report ?_⟩
  rw [exactSum_of_perm_filter hus]
  exact he

/-- Two exponents that overflow, one that does so only on the way, and zeros in between. -/
theorem canonicalForm_overflow_interleaved :
    let ts : List Term := [⟨9223372036854775807, 1⟩, ⟨0, 4⟩, ⟨9223372036854775807, 7⟩,
      ⟨9223372036854775807, 4⟩, ⟨1, 1⟩, ⟨3, 4⟩, ⟨5, 7⟩, ⟨2, 4⟩, ⟨-6, 7⟩, ⟨0, 4⟩]
    let us : List Term := [⟨3, 4⟩, ⟨5, 7⟩, ⟨9223372036854775807, 4⟩, ⟨2, 4⟩, ⟨1, 1⟩,
      ⟨9223372036854775807, 7⟩, ⟨0, -3⟩, ⟨-6, 7⟩, ⟨9223372036854775807, 1⟩]
    let fault := Fault.coefficientOverflow ⟨9223372036854775807, 4⟩ ⟨2, 4⟩
    ¬ Fits (exactSum ts 1) ∧ canonicalForm ts = .error fault ∧ HighestMisfit (exactSum ts) 4
      ∧ Ends ts 4 ⟨9223372036854775807, 4⟩ ⟨2, 4⟩
      ∧ ∃ a b, Ends us 4 a b ∧ canonicalForm us = .error (.coefficientOverflow a b) := by
  intro ts us fault
  have hlow : ¬ Fits (exactSum ts 1) := by decide +kernel
  have hfault : canonicalForm ts = .error fault := by decide +kernel
  obtain ⟨e, hmisfit, ⟨a, b, hends, hreport⟩, horder⟩ := canonicalForm_overflow ⟨1, hlow⟩
  rw [hfault] at hreport
  obtain ⟨rfl, rfl⟩ := Fault.coefficientOverflow.inj (Except.error.inj hreport)
  obtain rfl : 4 = e := by
    obtain ⟨-, -, -, -, ha, -⟩ := hends
    exact ha.2
  exact ⟨hlow, hfault, hmisfit, hends, horder us (by decide +kernel)⟩

end LaurentCalc
