import LaurentCalc.Proofs.CanonicalForm.Merging

/-!
# A running total and the canonical form

A running total has room for one term.  It takes a term that is like it, if the coefficients can be
added, and any other term leaves it as it was.  What it has come to is the canonical form of the
terms that it took, and whether it takes the next one is what the canonical form of the two says.

The total does not keep to one exponent.  When it cancels, the exponent it is left with means
nothing any more, and the next term that is not zero brings its own.  So the invariant is not about
the exponent of the total, but about all exact sums of the terms taken: `exactSum_taken`.

* `Term.total`, `Term.taken` — the total after a list of terms, and the terms it took.
* **`add_and_canonicalForm`** — the three ways in which two terms can meet.
* `totals_append_singleton`, **`exactSum_taken`** — one more step, and the invariant.
* **`totals_canonicalForm`** — every step of a run, and what the total is after it.
-/

namespace LaurentCalc

namespace Term

/-- What a total becomes over a list of terms, the refused ones being passed over. -/
def totalFrom (acc : Term) (ts : List Term) : Term :=
  ts.foldl (fun acc t => (acc.accumulate t).1) acc

def total (ts : List Term) : Term := totalFrom zero ts

/-- The terms of a list that the running total took. -/
def taken (ts : List Term) : List Term :=
  ((ts.zip (totals ts)).filter fun step => step.2.2 = .ok ()).map Prod.fst

/-- The term alone in a list, which is empty if the term is zero. -/
def alone (t : Term) : List Term := if t.IsZero then [] else [t]

lemma canonical_alone (t : Term) : Canonical t.alone := by
  rw [alone]
  split
  · exact ⟨by simp, List.Pairwise.nil⟩
  next hz => exact ⟨by simpa using hz, List.pairwise_singleton _ t⟩

lemma exactSum_alone (t : Term) (e : Int64) : exactSum t.alone e = exactSum [t] e := by
  rw [← exactSum_filter_isZero [t], alone]
  by_cases hz : t.IsZero <;> simp [hz]

lemma like_of_add {a b c : Term} (h : a.add b = .ok c) : a.Like b := by
  by_contra hunlike
  rw [add, if_neg hunlike] at h
  cases h

end Term

/-! ## Two terms -/

/-- Terms that can be added amount to their sum. -/
lemma canonicalForm_pair_of_add {a b c : Term} (h : a.add b = .ok c) :
    canonicalForm [a, b] = .ok c.alone := by
  refine (canonicalForm_eq_ok_iff _ _).2 ⟨c.canonical_alone, fun e => ?_⟩
  rw [c.exactSum_alone, exactSum_add (Term.like_of_add h) h, ← exactSum_append]
  rfl

/-- Terms that are not like stay apart, the one with the higher exponent in front. -/
lemma canonicalForm_pair_of_not_like {a b : Term} (h : ¬ a.Like b) :
    ∃ c d, canonicalForm [a, b] = .ok [c, d] := by
  obtain ⟨ha, hb, he⟩ : ¬ a.IsZero ∧ ¬ b.IsZero ∧ a.exponent ≠ b.exponent := by
    simpa [Term.Like] using h
  rcases Int64.lt_or_lt_of_ne he with hlt | hlt
  · have hcanonical : Canonical [b, a] := ⟨by simp [ha, hb], List.pairwise_pair.2 hlt⟩
    exact ⟨b, a, (canonicalForm_eq_ok_iff _ _).2 ⟨hcanonical, exactSum_perm (.swap a b [])⟩⟩
  · have hcanonical : Canonical [a, b] := ⟨by simp [ha, hb], List.pairwise_pair.2 hlt⟩
    exact ⟨a, b, (canonicalForm_self_iff _).2 hcanonical⟩

/-- Like terms that overflow make one group, of which they are the first and the last term. -/
lemma canonicalForm_pair_of_overflow {a b : Term} (hlike : a.Like b)
    (h : add? a.coefficient b.coefficient = none) :
    canonicalForm [a, b] = .error (.coefficientOverflow a b) := by
  have hunfit : ¬ Fits (a.coefficient.toInt + b.coefficient.toInt) := int64?_eq_none_iff.1 h
  obtain ⟨ha, hb, he⟩ := hlike.of_not_fits hunfit
  have hgroups : groups [a, b] = [(LikeGroup.single a).absorb b] := by
    simp [groups, ha, hb, place, ← he, LikeGroup.single, LikeGroup.exponent]
  have hsettle : ((LikeGroup.single a).absorb b).settle = .error (.coefficientOverflow a b) :=
    LikeGroup.settle_eq_error hunfit
  rw [canonicalForm, hgroups, settleAll, hsettle]
  rfl

/-- **Two terms** are added, or overflow, or are not like, and their canonical form tells which. -/
theorem add_and_canonicalForm (a b : Term) :
    (∃ c, a.add b = .ok c ∧ canonicalForm [a, b] = .ok c.alone)
    ∨ (a.add b = .error (.coefficientOverflow a b)
      ∧ canonicalForm [a, b] = .error (.coefficientOverflow a b))
    ∨ (a.add b = .error (.unlikeTerms a b) ∧ ∃ c d, canonicalForm [a, b] = .ok [c, d]) := by
  by_cases hlike : a.Like b
  · cases hsum : add? a.coefficient b.coefficient with
    | some w =>
        have hadd : a.add b = .ok ⟨w, Term.sharedExponent a b⟩ := by
          rw [Term.add, if_pos hlike, hsum]
        exact .inl ⟨_, hadd, canonicalForm_pair_of_add hadd⟩
    | none =>
        have hadd : a.add b = .error (.coefficientOverflow a b) := by
          rw [Term.add, if_pos hlike, hsum]
        exact .inr (.inl ⟨hadd, canonicalForm_pair_of_overflow hlike hsum⟩)
  · exact .inr (.inr ⟨if_neg hlike, canonicalForm_pair_of_not_like hlike⟩)

/-! ## One step -/

namespace Term

lemma accumulate_of_add {acc t acc' : Term} (h : acc.add t = .ok acc') :
    acc.accumulate t = (acc', .ok ()) := by
  rw [accumulate, h]

/-- A refused term leaves the total as it was. -/
lemma accumulate_of_refused {acc t : Term} {fault : Fault} (h : acc.add t = .error fault) :
    acc.accumulate t = (acc, .error fault) := by
  rw [accumulate, h]

/-- **Whether a term is taken** can be told from the canonical form of the total and the term. -/
theorem accumulate_outcome (acc t : Term) :
    ((acc.accumulate t).2 = .error (.coefficientOverflow acc t)
      ↔ canonicalForm [acc, t] = .error (.coefficientOverflow acc t))
    ∧ ((acc.accumulate t).2 = .error (.unlikeTerms acc t)
      ↔ ∃ c d, canonicalForm [acc, t] = .ok [c, d])
    ∧ ((acc.accumulate t).2 = .ok ()
      ↔ canonicalForm [acc, t] ≠ .error (.coefficientOverflow acc t)
        ∧ ¬ ∃ c d, canonicalForm [acc, t] = .ok [c, d]) := by
  rcases add_and_canonicalForm acc t with ⟨c, hadd, hform⟩ | ⟨hadd, hform⟩ | ⟨hadd, c, d, hform⟩
  · have halone : ∀ a b, c.alone ≠ [a, b] := by
      intro a b
      rw [alone]
      split <;> simp
    simp [accumulate_of_add hadd, hform, halone]
  · simp [accumulate_of_refused hadd, hform]
  · simp [accumulate_of_refused hadd, hform]

/-! ## Runs -/

lemma total_append_singleton (ts : List Term) (t : Term) :
    total (ts ++ [t]) = ((total ts).accumulate t).1 := by
  simp [total, totalFrom]

lemma totalsFrom_append_singleton (acc : Term) (ts : List Term) (t : Term) :
    totalsFrom acc (ts ++ [t])
      = totalsFrom acc ts ++ [(totalFrom acc ts).accumulate t] := by
  induction ts generalizing acc with
  | nil => rfl
  | cons u us ih => simp [totalsFrom, totalFrom, ih]

/-- One more term is one more step, from the total so far. -/
lemma totals_append_singleton (ts : List Term) (t : Term) :
    totals (ts ++ [t]) = totals ts ++ [(total ts).accumulate t] :=
  totalsFrom_append_singleton zero ts t

lemma length_totals (ts : List Term) : (totals ts).length = ts.length := by
  induction ts using List.reverseRecOn with
  | nil => rfl
  | append_singleton ts t ih => simp [totals_append_singleton, ih]

lemma taken_append_singleton (ts : List Term) (t : Term) :
    taken (ts ++ [t])
      = taken ts ++ if ((total ts).accumulate t).2 = .ok () then [t] else [] := by
  rw [taken, totals_append_singleton, List.zip_append (length_totals ts).symm, List.filter_append,
    List.map_append, taken]
  congr 1
  split_ifs with hok <;> simp [hok]

/-- **The total means what the terms taken mean together**, whatever exponent it carries. -/
theorem exactSum_taken (ts : List Term) (e : Int64) :
    exactSum (taken ts) e = exactSum [total ts] e := by
  induction ts using List.reverseRecOn with
  | nil => simp [taken, total, totalFrom, zero, exactSum_cons]
  | append_singleton ts t ih =>
      rw [taken_append_singleton, total_append_singleton]
      cases hadd : (total ts).add t with
      | ok acc' =>
          rw [accumulate_of_add hadd, if_pos rfl, exactSum_append, ih,
            exactSum_add (like_of_add hadd) hadd]
      | error fault =>
          rw [accumulate_of_refused hadd, if_neg (by simp), List.append_nil, ih]

/-- So it is their canonical form. -/
lemma canonicalForm_taken (ts : List Term) : canonicalForm (taken ts) = .ok (total ts).alone := by
  refine (canonicalForm_eq_ok_iff _ _).2 ⟨(total ts).canonical_alone, fun e => ?_⟩
  rw [(total ts).exactSum_alone, exactSum_taken]

lemma getElem?_totalsFrom (acc : Term) (ts : List Term) (i : ℕ) :
    (totalsFrom acc ts)[i]? = ts[i]?.map (totalFrom acc (ts.take i)).accumulate := by
  induction ts generalizing acc i with
  | nil => rfl
  | cons t ts ih =>
      cases i with
      | zero => rfl
      | succ i => simp [totalsFrom, totalFrom, ih]

/-- **Accumulating agrees with the canonical form.**  After every step the total, alone unless it is
zero, is the canonical form of the terms taken so far.  A step refuses its term for an overflow if
the canonical form of the total and the term fails in the same way, and as unlike if this canonical
form has two terms; it takes the term otherwise.  What it takes is added to the total, and what it
refuses leaves no trace. -/
theorem totals_canonicalForm (ts : List Term) :
    (∀ i, canonicalForm (taken (ts.take i)) = .ok (total (ts.take i)).alone)
    ∧ ∀ i, ∀ t ∈ ts[i]?, ∃ outcome,
      let acc := total (ts.take i)
      let acc' := total (ts.take (i + 1))
      (totals ts)[i]? = some (acc', outcome)
      ∧ (outcome = .error (.coefficientOverflow acc t)
        ↔ canonicalForm [acc, t] = .error (.coefficientOverflow acc t))
      ∧ (outcome = .error (.unlikeTerms acc t) ↔ ∃ c d, canonicalForm [acc, t] = .ok [c, d])
      ∧ (outcome = .ok ()
        ↔ canonicalForm [acc, t] ≠ .error (.coefficientOverflow acc t)
          ∧ ¬ ∃ c d, canonicalForm [acc, t] = .ok [c, d])
      ∧ (outcome = .ok () →
        acc.add t = .ok acc' ∧ taken (ts.take (i + 1)) = taken (ts.take i) ++ [t])
      ∧ (outcome ≠ .ok () → acc' = acc ∧ taken (ts.take (i + 1)) = taken (ts.take i)) := by
  refine ⟨fun i => canonicalForm_taken _, fun i t ht => ?_⟩
  have htake : ts.take (i + 1) = ts.take i ++ [t] := by
    rw [List.take_add_one, Option.mem_def.1 ht, Option.toList_some]
  obtain ⟨hoverflow, hunlike, htaken⟩ := accumulate_outcome (total (ts.take i)) t
  refine ⟨((total (ts.take i)).accumulate t).2, ?_, hoverflow, hunlike, htaken, ?_, ?_⟩
  · rw [totals, getElem?_totalsFrom, Option.mem_def.1 ht, htake, total_append_singleton]
    rfl
  · intro hok
    rw [htake, taken_append_singleton, if_pos hok, total_append_singleton]
    cases hadd : (total (ts.take i)).add t with
    | ok acc' => simp [accumulate_of_add hadd]
    | error fault => simp [accumulate_of_refused hadd] at hok
  · intro hrefused
    rw [htake, taken_append_singleton, if_neg hrefused, total_append_singleton, List.append_nil]
    cases hadd : (total (ts.take i)).add t with
    | ok acc' => simp [accumulate_of_add hadd] at hrefused
    | error fault => simp [accumulate_of_refused hadd]

/-- An overflow, an unlike term, and a total that cancels, keeps its exponent and then takes on
another. -/
theorem totals_canonicalForm_cancelled :
    let largest : Term := ⟨9223372036854775807, 1⟩
    let ts : List Term := [largest, ⟨1, 1⟩, ⟨5, 2⟩, ⟨-9223372036854775807, 1⟩, ⟨5, 2⟩, ⟨0, 7⟩]
    totals ts = [(largest, .ok ()), (largest, .error (.coefficientOverflow largest ⟨1, 1⟩)),
        (largest, .error (.unlikeTerms largest ⟨5, 2⟩)), (⟨0, 1⟩, .ok ()), (⟨5, 2⟩, .ok ()),
        (⟨5, 2⟩, .ok ())]
      ∧ canonicalForm [largest, ⟨1, 1⟩] = .error (.coefficientOverflow largest ⟨1, 1⟩)
      ∧ (∃ c d, canonicalForm [largest, ⟨5, 2⟩] = .ok [c, d])
      ∧ canonicalForm (taken (ts.take 4)) = .ok []
      ∧ canonicalForm (taken ts) = .ok [⟨5, 2⟩] := by
  intro largest ts
  obtain ⟨hform, hstep⟩ := totals_canonicalForm ts
  have hrun : totals ts = [(largest, .ok ()),
      (largest, .error (.coefficientOverflow largest ⟨1, 1⟩)),
      (largest, .error (.unlikeTerms largest ⟨5, 2⟩)), (⟨0, 1⟩, .ok ()), (⟨5, 2⟩, .ok ()),
      (⟨5, 2⟩, .ok ())] := by decide +kernel
  have htotals : total (ts.take 1) = largest ∧ total (ts.take 2) = largest
      ∧ total (ts.take 4) = ⟨0, 1⟩ ∧ total (ts.take 6) = ⟨5, 2⟩ := by decide +kernel
  obtain ⟨h1, h2, h4, h6⟩ := htotals
  obtain ⟨_, hsecond, hoverflow, -⟩ := hstep 1 ⟨1, 1⟩ rfl
  obtain ⟨_, hthird, -, hunlike, -⟩ := hstep 2 ⟨5, 2⟩ rfl
  rw [hrun] at hsecond hthird
  rw [h1] at hoverflow
  rw [h2] at hunlike
  refine ⟨hrun, hoverflow.1 (Prod.mk.inj (Option.some.inj hsecond)).2.symm,
    hunlike.1 (Prod.mk.inj (Option.some.inj hthird)).2.symm, ?_, ?_⟩
  · rw [hform 4, h4]
    rfl
  · rw [show ts = ts.take 6 from rfl, hform 6, h6]
    rfl

end Term

end LaurentCalc
