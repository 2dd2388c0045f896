import LaurentCalc.Proofs.Expression.Denotation
import LaurentCalc.Proofs.Polynomial.Exact

/-!
# What is printed is read back

Printing and reading are separate functions that never call each other.  What connects them is the
grammar: a printed list of terms is, up to blanks, a list of written terms one behind the other,
and `termsOfText_eq_ok_iff` says that the reader finds these.  So nothing here looks at a single
step of the reader.

Terms are printed in two ways: a polynomial has blanks around the signs between its terms and none
in front, and a term on its own always shows its sign.  The second way needs nothing between one
term and the next, and a list of such terms is read back wherever blanks are put into it.

* `Term.leading`, `writtenTerms` — the written terms of a printed list.
* **`termsOfText_chars`** — a printed list that is not empty is read back, canonical or not.
* **`ofText_text`** — a printed polynomial is read back as itself.
* `Spaced` — a text with blanks put in.
* **`termsOfText_join`** — printed terms, one behind the other and spaced at will, are read back.
-/

namespace LaurentCalc

/-! ## The written terms of a printed list -/

/-- The canonical writing of a term in front of the others: a plus sign is left out. -/
def Term.leading (t : Term) : WrittenTerm :=
  ⟨match t.sign with
    | .plus => none
    | .minus => some .minus, t.body⟩

def writtenTerms : List Term → List WrittenTerm
  | [] => []
  | t :: ts => t.leading :: ts.map Term.written

lemma joinable_writtenTerms (ts : List Term) : Joinable (writtenTerms ts) := by
  intro w hw
  cases ts with
  | nil => simp [writtenTerms] at hw
  | cons t ts =>
      obtain ⟨u, -, rfl⟩ := List.mem_map.1 hw
      simp [Term.written]

/-- Leaving out a plus sign changes nothing. -/
lemma Term.exact_leading (t : Term) : t.leading.exact = t.exact := by
  rw [(term_eq_ok_iff t.written t).1 t.term_written, leading, written]
  cases t.sign <;> rcases t.body with n | ⟨n, _ | p⟩ <;> rfl

lemma valuesOf_written (ts : List Term) : valuesOf (ts.map Term.written) = .ok ts := by
  rw [valuesOf_eq_ok_iff, List.map_map]
  exact List.map_congr_left fun t _ => (term_eq_ok_iff t.written t).1 t.term_written

lemma valuesOf_writtenTerms (ts : List Term) : valuesOf (writtenTerms ts) = .ok ts := by
  cases ts with
  | nil => rfl
  | cons t ts =>
      have hrest := (valuesOf_eq_ok_iff _ ts).1 (valuesOf_written ts)
      rw [valuesOf_eq_ok_iff, writtenTerms, List.map_cons, List.map_cons, t.exact_leading, hrest]

/-! ## Blanks -/

lemma Symbol.isBlank_char (y : Symbol) : isBlank y.char = false := by
  have hblank : ∀ c ∈ "x+-^0123456789".toList, isBlank c = false := by
    simp [isBlank, blankRanges]
  exact hblank y.char y.char_mem_alphabet

lemma filter_map_char (ys : List Symbol) :
    (ys.map Symbol.char).filter (fun c => !isBlank c) = ys.map Symbol.char := by
  rw [List.filter_eq_self]
  intro c hc
  obtain ⟨y, -, rfl⟩ := List.mem_map.1 hc
  simp [y.isBlank_char]

lemma filter_leadingChars (t : Term) :
    (Polynomial.leadingChars t).filter (fun c => !isBlank c) = t.leading.chars := by
  have hleading : Polynomial.leadingChars t = t.leading.symbols.map Symbol.char := by
    rw [Polynomial.leadingChars, Term.leading]
    cases t.sign <;> rfl
  rw [hleading, filter_map_char, WrittenTerm.chars]

lemma filter_followingChars (t : Term) :
    (Polynomial.followingChars t).filter (fun c => !isBlank c) = t.written.chars := by
  have hsign := Symbol.isBlank_char (.sign t.sign)
  have hbody := filter_map_char t.body.symbols
  have hblank : isBlank ' ' = true := rfl
  show (' ' :: (Symbol.sign t.sign).char :: ' ' :: t.bodyChars).filter _ = _
  simp only [List.filter_cons, hsign, hblank, Bool.not_true, Bool.not_false, Term.bodyChars, hbody]
  simp [WrittenTerm.chars, WrittenTerm.symbols, Term.written, signSymbols]

/-- Without its blanks, a printed list is its written terms. -/
lemma writes_chars {ts : List Term} (h : ts ≠ []) :
    Writes (nonBlank (String.ofList (Polynomial.chars ts))) (writtenTerms ts) := by
  refine ⟨joinable_writtenTerms ts, ?_⟩
  cases ts with
  | nil => exact absurd rfl h
  | cons t ts =>
      rw [nonBlank, String.toList_ofList, Polynomial.chars, List.filter_append,
        List.filter_flatMap, filter_leadingChars, writtenTerms, List.flatMap_cons, List.flatMap_map]
      simp only [filter_followingChars]

/-! ## Round trips -/

/-- **A printed list is read back**, term for term and in its order. -/
theorem termsOfText_chars {ts : List Term} (h : ts ≠ []) :
    termsOfText (String.ofList (Polynomial.chars ts)) = .ok ts :=
  (termsOfText_eq_ok_iff _ ts).2 ⟨writtenTerms ts, writes_chars h, valuesOf_writtenTerms ts⟩

lemma termsOfText_zero : termsOfText "0" = .ok [Term.zero] := rfl

namespace Polynomial

lemma text_of_isZero {p : Polynomial} (h : p.IsZero) : p.text = "0" := by
  rw [text, show p.terms = [] from h]
  rfl

/-- A printed polynomial is accepted, and is read as itself. -/
lemma ofText_printed (p : Polynomial) : ofText p.text = .ok p := by
  by_cases hz : p.IsZero
  · have hterms : p.terms = [] := hz
    rw [ofText, text_of_isZero hz, termsOfText_zero]
    show ofTerms [Term.zero] = .ok p
    rw [ofTerms_eq_ok_iff, hterms]
    rfl
  · rw [ofText, show termsOfText p.text = .ok p.terms from termsOfText_chars hz]
    show ofTerms p.terms = .ok p
    rw [ofTerms_eq_ok_iff, canonicalForm_self_iff]
    exact p.canonical

/-- **A polynomial is what its text denotes.**  No normalization is needed: the terms are read as
they were printed.  Only zero, which has no terms to print, is read as a term of its own. -/
theorem ofText_text (p : Polynomial) :
    (¬ p.IsZero → termsOfText p.text = .ok p.terms)
    ∧ (p.IsZero → p.text = "0" ∧ termsOfText p.text = .ok [Term.zero])
    ∧ ofText p.text = .ok p := by
  refine ⟨termsOfText_chars, fun hz => ⟨text_of_isZero hz, ?_⟩, p.ofText_printed⟩
  rw [text_of_isZero hz, termsOfText_zero]

/-- The least coefficient, the least exponent, and every shorthand there is. -/
theorem ofText_text_limits :
    let p : Polynomial := ⟨[⟨-9223372036854775808, 9223372036854775807⟩, ⟨1, 1⟩, ⟨-1, 0⟩, ⟨3, -1⟩,
      ⟨-1, -9223372036854775808⟩], by decide⟩
    p.text = "-9223372036854775808x^9223372036854775807 + x - 1 + 3x^-1 - x^-9223372036854775808"
      ∧ termsOfText p.text = .ok p.terms
      ∧ termsOfText zero.text = .ok [Term.zero] := by
  intro p
  refine ⟨?_, (ofText_text p).1 (by decide), ((ofText_text zero).2.1 rfl).2⟩
  decide +kernel

end Polynomial

/-! ## Terms one behind the other -/

/-- `Spaced cs ds`: the characters `ds` are `cs` with blanks put in, anywhere and any number of
them. -/
inductive Spaced : List Char → List Char → Prop
  | nil : Spaced [] []
  | blank {b : Char} {cs ds : List Char} (hb : isBlank b = true) (h : Spaced cs ds) :
      Spaced cs (b :: ds)
  | keep (c : Char) {cs ds : List Char} (h : Spaced cs ds) : Spaced (c :: cs) (c :: ds)

/-- Dropping the blanks undoes the spacing, apart from blanks that were there before. -/
lemma Spaced.filter_eq {cs ds : List Char} (h : Spaced cs ds) :
    (ds.filter fun c => !isBlank c) = cs.filter fun c => !isBlank c := by
  induction h with
  | nil => rfl
  | blank hb _ ih => rw [List.filter_cons_of_neg (by simp [hb]), ih]
  | keep c _ ih => rw [List.filter_cons, List.filter_cons, ih]

lemma spaced_filter (ds : List Char) : Spaced (ds.filter fun c => !isBlank c) ds := by
  induction ds with
  | nil => exact .nil
  | cons d ds ih =>
      by_cases hd : isBlank d = true
      · rw [List.filter_cons_of_neg (by simp [hd])]
        exact .blank hd ih
      · rw [List.filter_cons_of_pos (by simp [hd])]
        exact .keep d ih

lemma Term.toList_text (t : Term) : t.text.toList = t.written.chars := by
  rw [text, String.toList_ofList]
  rfl

/-- Every term shows its sign, so nothing has to stand between one and the next. -/
lemma writes_join_text (ts : List Term) :
    Writes (String.join (ts.map Term.text)).toList (ts.map Term.written) := by
  constructor
  case joinable =>
      intro w hw
      obtain ⟨t, -, rfl⟩ := List.mem_map.1 (List.mem_of_mem_tail hw)
      simp [Term.written]
  case chars =>
      simp only [String.toList_join, List.flatMap_map, Term.toList_text]

/-- Written terms have no blanks in them. -/
lemma Writes.filter_eq {cs : List Char} {ws : List WrittenTerm} (h : Writes cs ws) :
    (cs.filter fun c => !isBlank c) = cs := by
  rw [← h.chars, flatMap_chars, filter_map_char]

/-- **Printed terms are read back**, whatever their number and order, zeros and repeated exponents
included, and wherever blanks are put in. -/
theorem termsOfText_join (ts : List Term) {text : String}
    (h : Spaced (String.join (ts.map Term.text)).toList text.toList) :
    termsOfText text = .ok ts := by
  have hwrites := writes_join_text ts
  have hnonBlank : nonBlank text = (String.join (ts.map Term.text)).toList := by
    rw [nonBlank, h.filter_eq, hwrites.filter_eq]
  exact (termsOfText_eq_ok_iff text ts).2 ⟨_, hnonBlank ▸ hwrites, valuesOf_written ts⟩

/-- Zeros with extreme exponents, the least coefficient and exponent, one term twice, and blanks
between, before, behind and inside terms. -/
theorem termsOfText_join_limits :
    let ts : List Term := [⟨0, -9223372036854775808⟩, ⟨-9223372036854775808, 9223372036854775807⟩,
      ⟨-1, 1⟩, ⟨-1, 1⟩, ⟨0, 0⟩, ⟨1, 0⟩]
    let text := "\t+ 0x^-9223372036854775808-92233720 36854775808x^9223372036854775807\u2003-x\n"
      ++ "- x+0+1 "
    Spaced (String.join (ts.map Term.text)).toList text.toList ∧ termsOfText text = .ok ts := by
  intro ts text
  have hjoin : (text.toList.filter fun c => !isBlank c)
      = (String.join (ts.map Term.text)).toList := by
    decide +kernel
  have hspaced := hjoin ▸ spaced_filter text.toList
  exact ⟨hspaced, termsOfText_join ts hspaced⟩

end LaurentCalc
