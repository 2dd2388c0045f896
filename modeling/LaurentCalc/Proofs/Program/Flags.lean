import LaurentCalc.CommandLine
import Mathlib.Algebra.Ring.Nat
import Mathlib.Data.List.Basic
import Mathlib.Tactic.Lemma

/-!
# Flags among expressions

Flags may stand anywhere among the expressions, and an expression may begin like a flag.  Arguments
are read one by one all the same: each of them is a row of flags or an expression whatever stands
beside it, and nothing of it is lost.  Only three things reach further than their own argument, and
they reach to the right: the separator, behind which everything is an expression, and a request for
help or for the version, which is an answer to all that follows.  So the arguments up to the first
of these can be read on their own, and what they ask for is put in front of the rest.

* `IsRow`, `IsRequest` — what an argument is, said of its characters.
* `flags?_of_not_isRequest` — an argument that is no request is a row of flags or an expression.
* `Invocation.behind` — expressions in front, and more verbosity.
* **`ofArguments_eq_behind`** — reading goes on behind arguments without a request.
* **`ofArguments_append`** — what they ask for, and what follows them.
-/

namespace LaurentCalc

/-! ## Rows and requests -/

/-- A hyphen, and behind it nothing but letters of flags, at least one. -/
def IsRow (argument : String) : Prop :=
  argument.toList.head? = some '-' ∧ argument.toList.tail ≠ []
    ∧ argument.toList.tail ⊆ ['v', 'h', 'V']

instance : DecidablePred IsRow := fun argument =>
  inferInstanceAs (Decidable (argument.toList.head? = some '-' ∧ argument.toList.tail ≠ []
    ∧ argument.toList.tail ⊆ ['v', 'h', 'V']))

/-- The argument asks for help or for the version, by a letter in a row or by a name. -/
def IsRequest (argument : String) : Prop :=
  (IsRow argument ∧ ('h' ∈ argument.toList ∨ 'V' ∈ argument.toList))
    ∨ (['-', '-'] <+: argument.toList
      ∧ flagName (argument.toList.drop 2) ∈ ["help", "version"])

instance : DecidablePred IsRequest := fun argument =>
  inferInstanceAs (Decidable ((IsRow argument ∧ ('h' ∈ argument.toList ∨ 'V' ∈ argument.toList))
    ∨ (['-', '-'] <+: argument.toList
      ∧ flagName (argument.toList.drop 2) ∈ ["help", "version"])))

/-- What an argument adds to the verbosity: a row counts its letters, an expression nothing. -/
def verbosity (argument : String) : ℕ := if IsRow argument then argument.toList.count 'v' else 0

/-! ## The flags of one argument -/

lemma mapM_ofLetter?_eq_some {cs : List Char} (h : cs ⊆ ['v', 'h', 'V']) :
    cs.mapM Flag.ofLetter? = some (cs.filterMap Flag.ofLetter?) := by
  induction cs with
  | nil => rfl
  | cons c cs ih =>
      obtain ⟨hc, hcs⟩ := List.cons_subset.1 h
      obtain ⟨f, hf⟩ : ∃ f, Flag.ofLetter? c = some f := by
        simp only [List.mem_cons, List.not_mem_nil, or_false] at hc
        rcases hc with rfl | rfl | rfl <;> exact ⟨_, rfl⟩
      simp [hf, ih hcs]

/-- One character that is no letter of a flag is enough. -/
lemma mapM_ofLetter?_eq_none {cs : List Char} (h : ¬ cs ⊆ ['v', 'h', 'V']) :
    cs.mapM Flag.ofLetter? = none := by
  induction cs with
  | nil => simp at h
  | cons c cs ih =>
      rw [List.mapM_cons]
      by_cases hc : c ∈ ['v', 'h', 'V']
      · rw [ih fun hcs => h (List.cons_subset.2 ⟨hc, hcs⟩)]
        cases Flag.ofLetter? c <;> rfl
      · have hnone : Flag.ofLetter? c = none := by
          rw [Flag.ofLetter?] <;> rintro rfl <;> simp at hc
        rw [hnone]
        rfl

/-- One hyphen, and behind it all has to be letters of flags. -/
lemma flags?_of_toList {argument : String} {c : Char} {cs : List Char} (hc : c ≠ '-')
    (h : argument.toList = '-' :: c :: cs) : flags? argument = (c :: cs).mapM Flag.ofLetter? := by
  rw [flags?, h]
  split
  next heq => exact absurd (List.cons.inj (List.cons.inj heq).2).1 hc
  next heq =>
    obtain ⟨rfl, rfl⟩ := List.cons.inj (List.cons.inj heq).2
    rfl
  next hne => exact absurd rfl (hne c cs)

/-- A row consists of the flags of its letters. -/
lemma flags?_of_isRow {argument : String} (h : IsRow argument) :
    flags? argument = some (argument.toList.filterMap Flag.ofLetter?) := by
  obtain ⟨hhead, htail, hall⟩ := h
  obtain ⟨cs, hargument⟩ := List.head?_eq_some_iff.1 hhead
  rw [hargument] at htail hall ⊢
  cases cs with
  | nil => exact absurd rfl htail
  | cons c cs =>
      have hc : c ≠ '-' := by
        rintro rfl
        simpa using hall List.mem_cons_self
      exact (flags?_of_toList hc hargument).trans (mapM_ofLetter?_eq_some hall)

lemma filterMap_ofLetter? {cs : List Char} (h : ¬ ('h' ∈ cs ∨ 'V' ∈ cs)) :
    cs.filterMap Flag.ofLetter? = List.replicate (cs.count 'v') .verbose := by
  induction cs with
  | nil => rfl
  | cons c cs ih =>
      simp only [List.mem_cons, not_or] at h
      obtain ⟨⟨hh, hcs⟩, hV, hcs'⟩ := h
      by_cases hv : c = 'v'
      · subst hv
        simp [Flag.ofLetter?, ih (not_or.2 ⟨hcs, hcs'⟩), List.replicate_succ]
      · have hnone : Flag.ofLetter? c = none := by
          rw [Flag.ofLetter?] <;> rintro rfl <;> contradiction
        simp [hnone, ih (not_or.2 ⟨hcs, hcs'⟩), hv]

/-- What is neither a row nor a request is an expression. -/
lemma flags?_of_not_isRow {argument : String} (hrow : ¬ IsRow argument)
    (h : ¬ IsRequest argument) : flags? argument = none := by
  rw [flags?]
  split
  next cs hcs =>
    have hname : flagName cs ∉ ["help", "version"] := fun hname =>
      h (.inr ⟨hcs ▸ ⟨cs, rfl⟩, by rwa [hcs]⟩)
    have hnone : Flag.ofName? (flagName cs) = none := by
      simp_all [Flag.ofName?]
    rw [hnone]
    rfl
  next c cs _ hcs =>
    refine mapM_ofLetter?_eq_none fun hall => hrow ⟨?_, ?_, ?_⟩ <;> rw [hcs]
    · rfl
    · simp
    · exact hall
  next => rfl

/-- **An argument that is no request** is a row of flags, or else an expression. -/
theorem flags?_of_not_isRequest {argument : String} (h : ¬ IsRequest argument) :
    flags? argument
      = if IsRow argument then some (List.replicate (argument.toList.count 'v') .verbose)
        else none := by
  split
  next hrow =>
    rw [flags?_of_isRow hrow, filterMap_ofLetter? fun hletter => h (.inl ⟨hrow, hletter⟩)]
  next hrow => exact flags?_of_not_isRow hrow h

/-- A request has a flag that asks for an answer. -/
lemma exists_flags?_of_isRequest {argument : String} (h : IsRequest argument) :
    ∃ fs, flags? argument = some fs ∧ ∃ f ∈ fs, f ≠ .verbose := by
  rcases h with ⟨hrow, hletter⟩ | ⟨⟨cs, hcs⟩, hname⟩
  · refine ⟨_, flags?_of_isRow hrow, ?_⟩
    rcases hletter with hh | hV
    · exact ⟨.help, List.mem_filterMap.2 ⟨_, hh, rfl⟩, by decide⟩
    · exact ⟨.version, List.mem_filterMap.2 ⟨_, hV, rfl⟩, by decide⟩
  · rw [← hcs] at hname
    rw [flags?, ← hcs]
    simp only [List.cons_append, List.nil_append, List.drop_succ_cons, List.drop_zero,
      List.mem_cons, List.not_mem_nil, or_false] at hname ⊢
    rcases hname with hname | hname <;> rw [hname]
    · exact ⟨[.help], rfl, by simp⟩
    · exact ⟨[.version], rfl, by simp⟩

namespace Invocation

/-! ## What follows -/

/-- The invocation with expressions in front and with more verbosity.  An answer stays. -/
def behind (es : List String) (n : ℕ) : Invocation → Invocation
  | calculate es' n' => calculate (es ++ es') (n + n')
  | other => other

lemma foldr_withFlag_replicate (n : ℕ) (invocation : Invocation) :
    (List.replicate n .verbose).foldr withFlag invocation = invocation.behind [] n := by
  induction n with
  | zero => cases invocation <;> simp [behind]
  | succ n ih =>
      rw [List.replicate_succ, List.foldr_cons, ih]
      cases invocation with
      | calculate es m => simp [behind, withFlag, Nat.add_right_comm]
      | _ => rfl

lemma behind_behind (es es' : List String) (n n' : ℕ) (invocation : Invocation) :
    (invocation.behind es' n').behind es n = invocation.behind (es ++ es') (n + n') := by
  cases invocation <;> simp [behind, Nat.add_assoc]

/-- One argument: a row of flags adds its letters, and everything else is one expression. -/
lemma ofArguments_cons {a : String} (hseparator : a ≠ separator) (hrequest : ¬ IsRequest a)
    (as : List String) :
    ofArguments (a :: as)
      = (ofArguments as).behind (if IsRow a then [] else [a]) (verbosity a) := by
  rw [ofArguments, if_neg hseparator, flags?_of_not_isRequest hrequest, verbosity]
  split_ifs with hrow
  · exact foldr_withFlag_replicate _ _
  · cases ofArguments as <;> simp [withExpression, behind]

/-- A flag that asks for an answer gets it, whatever stands in front of it and behind it. -/
lemma foldr_withFlag_of_ne_verbose {fs : List Flag} (h : ∃ f ∈ fs, f ≠ .verbose)
    (invocation : Invocation) :
    fs.foldr withFlag invocation = help ∨ fs.foldr withFlag invocation = version := by
  induction fs with
  | nil => simp at h
  | cons f fs ih =>
      cases f with
      | help => exact .inl rfl
      | version => exact .inr rfl
      | verbose =>
          rcases ih (by simpa using h) with hanswer | hanswer
          · exact .inl (by rw [List.foldr_cons, hanswer]; rfl)
          · exact .inr (by rw [List.foldr_cons, hanswer]; rfl)

/-- A request is answered. -/
lemma ofArguments_of_isRequest {a : String} (h : IsRequest a) (as : List String) :
    ofArguments (a :: as) = help ∨ ofArguments (a :: as) = version := by
  obtain ⟨fs, hfs, hanswer⟩ := exists_flags?_of_isRequest h
  have hseparator : a ≠ separator := by
    rintro rfl
    revert h
    decide +kernel
  rw [ofArguments, if_neg hseparator, hfs]
  exact foldr_withFlag_of_ne_verbose hanswer _

/-- **Reading goes on** behind arguments without a request. -/
theorem ofArguments_eq_behind {as : List String} (hseparator : separator ∉ as)
    (hrequest : ∀ a ∈ as, ¬ IsRequest a) (bs : List String) :
    ofArguments (as ++ bs)
      = (ofArguments bs).behind (as.filter fun a => ¬ IsRow a) (as.map verbosity).sum := by
  induction as with
  | nil => cases h : ofArguments bs <;> simp [h, behind]
  | cons a as ih =>
      rw [List.mem_cons, not_or] at hseparator
      rw [List.forall_mem_cons] at hrequest
      rw [List.cons_append, ofArguments_cons (Ne.symm hseparator.1) hrequest.1,
        ih hseparator.2 hrequest.2, behind_behind, List.map_cons, List.sum_cons]
      by_cases hrow : IsRow a <;> simp [hrow]

/-- Without a separator, there is an answer exactly if there is a request. -/
lemma exists_isRequest_iff {as : List String} (hseparator : separator ∉ as) :
    (∃ a ∈ as, IsRequest a) ↔ ofArguments as = help ∨ ofArguments as = version := by
  induction as with
  | nil => simp [ofArguments]
  | cons a as ih =>
      rw [List.mem_cons, not_or] at hseparator
      by_cases ha : IsRequest a
      · exact iff_of_true ⟨a, List.mem_cons_self, ha⟩ (ofArguments_of_isRequest ha as)
      · rw [List.exists_mem_cons_iff, or_iff_right ha, ih hseparator.2,
          ofArguments_cons (Ne.symm hseparator.1) ha]
        cases ofArguments as <;> simp [behind]

/-- **No argument is lost**, read twice or moved.  Before the separator there is an answer exactly
if some argument is a request.  If none is, every argument is a row of flags, and then its letters
are counted, or it is an expression, and these stay in their order.  What other arguments ask for
is put behind that, with the verbosities added, and their answer is the answer; and behind the
separator everything is an expression, whatever it looks like. -/
theorem ofArguments_append {as : List String} (hseparator : separator ∉ as) :
    ((∃ a ∈ as, IsRequest a) ↔ ofArguments as = help ∨ ofArguments as = version)
    ∧ ((∀ a ∈ as, ¬ IsRequest a) →
      let es := as.filter fun a => ¬ IsRow a
      let n := (as.map verbosity).sum
      ofArguments as = calculate es n
      ∧ (∀ bs es' n', ofArguments bs = calculate es' n' →
        ofArguments (as ++ bs) = calculate (es ++ es') (n + n'))
      ∧ (∀ bs, ofArguments (as ++ bs) = help ↔ ofArguments bs = help)
      ∧ (∀ bs, ofArguments (as ++ bs) = version ↔ ofArguments bs = version)
      ∧ ∀ es', ofArguments (as ++ [separator] ++ es') = calculate (es ++ es') n) := by
  refine ⟨exists_isRequest_iff hseparator, fun hrequest => ?_⟩
  have happend := ofArguments_eq_behind hseparator hrequest
  refine ⟨?_, fun bs es' n' hbs => ?_, fun bs => ?_, fun bs => ?_, fun es' => ?_⟩
  · simpa [ofArguments, behind] using happend []
  · rw [happend, hbs, behind]
  · rw [happend]
    cases ofArguments bs <;> simp [behind]
  · rw [happend]
    cases ofArguments bs <;> simp [behind]
  · rw [List.append_assoc, happend, List.singleton_append, ofArguments, if_pos rfl, behind,
      Nat.add_zero]

/-- Rows and things that only begin like one, a separator behind them, and a request in a row. -/
theorem ofArguments_append_rows :
    let as := ["-x", "-vv", "-", "-v3", "-v", "--v", ""]
    let bs := ["-v", "x", "--", "-h"]
    separator ∉ as ∧ (∀ a ∈ as, ¬ IsRequest a)
      ∧ ofArguments as = calculate ["-x", "-", "-v3", "--v", ""] 3
      ∧ ofArguments (as ++ bs) = calculate ["-x", "-", "-v3", "--v", "", "x", "-h"] 4
      ∧ ofArguments (as ++ ["-vhV"]) = help
      ∧ ofArguments (as ++ [separator] ++ ["-v", "--", "--help"])
        = calculate ["-x", "-", "-v3", "--v", "", "-v", "--", "--help"] 3 := by
  intro as bs
  have hseparator : separator ∉ as := by decide +kernel
  have hrequest : ∀ a ∈ as, ¬ IsRequest a := by decide +kernel
  have hfilter : (as.filter fun a => ¬ IsRow a) = ["-x", "-", "-v3", "--v", ""] := by decide +kernel
  have hsum : (as.map verbosity).sum = 3 := by decide +kernel
  obtain ⟨has, hcalculate, hhelp, -, hrest⟩ := (ofArguments_append hseparator).2 hrequest
  rw [hfilter, hsum] at has hcalculate hrest
  exact ⟨hseparator, hrequest, has, hcalculate bs ["x", "-h"] 1 (by decide +kernel),
    (hhelp ["-vhV"]).2 (by decide +kernel), hrest ["-v", "--", "--help"]⟩

end Invocation

end LaurentCalc
