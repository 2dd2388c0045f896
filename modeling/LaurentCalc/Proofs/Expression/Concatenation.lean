import LaurentCalc.Proofs.Expression.ViablePrefix
import LaurentCalc.Proofs.Polynomial.Arithmetic

/-!
# Expressions one behind the other

A sign that begins a term can be told from one that belongs to an exponent by the symbol before it,
which is a caret in the second case only.  So a text may be cut in front of any other sign, and its
parts glued together there: reading the whole comes to the same as reading the parts.  This is not
limited to expressions; where one of the parts cannot be read, the whole cannot either.

The reader shows why.  Behind a symbol other than the caret a sign closes the term that is being
read, exactly as the end of the text would (`Stage.step?_sign`), and then the reader stands where it
stands behind a sign at the very start.

* **`readSymbols_append_sign`** — reading the whole is reading the parts.
* `spells_append_iff`, `writes_append_iff` — the same for what symbols and characters mean.
* `Writes.getLast?_ne_caret`, `Writes.plus` — no expression ends with a caret; a plus sign may be
  put in front of one that has none.
* **`termsOfText_append`** — texts, and what follows for sums.
-/

namespace LaurentCalc

/-! ## Signs behind a caret, and elsewhere -/

namespace Stage

/-- The last symbol read was the caret. -/
def IsCaret : Stage → Prop
  | caret _ _ => True
  | _ => False

lemma isCaret_step? {st st' : Stage} {y : Symbol} (h : (st.step? y).map Prod.snd = some st') :
    st'.IsCaret ↔ y = .caret := by
  cases st <;> cases y <;> cases h <;> simp [IsCaret]

lemma finish?_of_isCaret {st : Stage} (h : st.IsCaret) : st.finish? = none := by
  cases st with
  | caret => rfl
  | _ => exact h.elim

/-- Other than behind a caret, a sign is accepted where the end of the text is, and completes what
that would complete. -/
lemma step?_sign {st : Stage} (h : ¬ st.IsCaret) (s : Sign) :
    st.step? (.sign s) = st.finish?.map (·, signed s) := by
  cases st with
  | caret => exact absurd trivial h
  | _ => rfl

/-- The stage that is reached tells whether the last symbol was a caret. -/
lemma isCaret_iff {xs : List Symbol} {st : Stage} (h : start.advance? xs = some st) :
    st.IsCaret ↔ xs.getLast? = some .caret := by
  rcases List.eq_nil_or_concat xs with rfl | ⟨init, y, rfl⟩
  · cases h
    simp [IsCaret]
  · rw [List.concat_eq_append] at h ⊢
    rw [advance?_append_singleton] at h
    obtain ⟨st', -, hstep⟩ := Option.bind_eq_some_iff.1 h
    rw [isCaret_step? hstep, List.getLast?_concat, Option.some.injEq]

end Stage

/-! ## Symbols -/

/-- A sign in the middle, not behind a caret, divides the reading into two. -/
lemma readSymbols_append_sign_of {st : Stage} {xs : List Symbol}
    (h : ∀ st', st.advance? xs = some st' → ¬ st'.IsCaret) (s : Sign) (ys : List Symbol) :
    readSymbols st (xs ++ .sign s :: ys)
      = (readSymbols st xs).bind fun ws => (readSymbols (.signed s) ys).map (ws ++ ·) := by
  induction xs generalizing st with
  | nil =>
      simp only [List.nil_append, readSymbols, Stage.step?_sign (h st rfl)]
      cases st.finish? <;> rfl
  | cons x xs ih =>
      simp only [Stage.advance?_cons] at h
      rw [List.cons_append, readSymbols, readSymbols]
      cases hstep : st.step? x with
      | none => rfl
      | some r =>
          rw [hstep] at h
          rw [Option.bind_some, Option.bind_some, ih h]
          cases readSymbols r.2 xs <;> cases readSymbols (.signed s) ys <;>
            simp [List.append_assoc]

/-- **Reading the whole is reading the parts**, if the second begins with a sign and the first does
not end with a caret. -/
theorem readSymbols_append_sign {xs : List Symbol} (hxs : xs.getLast? ≠ some .caret) (s : Sign)
    (ys : List Symbol) :
    readSymbols .start (xs ++ .sign s :: ys)
      = (readSymbols .start xs).bind fun ws =>
        (readSymbols .start (.sign s :: ys)).map (ws ++ ·) := by
  -- at the start a sign brings the reader to the same stage as behind a complete term
  have hstart : readSymbols .start (.sign s :: ys) = readSymbols (.signed s) ys := by
    show (readSymbols (.signed s) ys).map ([] ++ ·) = _
    simp
  rw [hstart]
  exact readSymbols_append_sign_of (fun _ hst => mt (Stage.isCaret_iff hst).1 hxs) s ys

lemma spells_append_iff {xs : List Symbol} (hxs : xs.getLast? ≠ some .caret) (s : Sign)
    (ys : List Symbol) (us : List WrittenTerm) :
    Spells (xs ++ .sign s :: ys) us
      ↔ ∃ ws vs, Spells xs ws ∧ Spells (.sign s :: ys) vs ∧ us = ws ++ vs := by
  simp only [← readSymbols_eq_some_iff, readSymbols_append_sign hxs, Option.bind_eq_some_iff,
    Option.map_eq_some_iff]
  constructor
  · rintro ⟨ws, hws, vs, hvs, rfl⟩
    exact ⟨ws, vs, hws, hvs, rfl⟩
  · rintro ⟨ws, vs, hws, hvs, rfl⟩
    exact ⟨ws, hws, vs, hvs, rfl⟩

/-! ## Characters -/

/-- Symbols that are written with these characters, and the terms they spell. -/
lemma writes_iff_exists_map (cs : List Char) (ws : List WrittenTerm) :
    Writes cs ws ↔ ∃ ys : List Symbol, ys.map Symbol.char = cs ∧ Spells ys ws := by
  simp only [writes_iff, mapM_ofChar?_eq_some_iff]

lemma writes_append_iff {cs ds : List Char} (hcs : cs.getLast? ≠ some '^') (s : Sign)
    (us : List WrittenTerm) :
    Writes (cs ++ s.char :: ds) us
      ↔ ∃ ws vs, Writes cs ws ∧ Writes (s.char :: ds) vs ∧ us = ws ++ vs := by
  have hlast : ∀ xs : List Symbol, xs.map Symbol.char = cs → xs.getLast? ≠ some .caret := by
    rintro xs rfl hxs
    refine hcs ?_
    rw [List.getLast?_map, hxs]
    rfl
  have hsign : ∀ y : Symbol, y.char = s.char → y = .sign s := fun _ hy => Symbol.char_injective hy
  constructor
  · intro h
    obtain ⟨us', hus', hspells⟩ := (writes_iff_exists_map _ us).1 h
    obtain ⟨xs, zs, rfl, hxs, hzs⟩ := List.map_eq_append_iff.1 hus'
    obtain ⟨y, ys, rfl, hy, hys⟩ := List.map_eq_cons_iff.1 hzs
    obtain rfl := hsign y hy
    obtain ⟨ws, vs, hws, hvs, rfl⟩ := (spells_append_iff (hlast xs hxs) s ys us).1 hspells
    exact ⟨ws, vs, (writes_iff_exists_map _ ws).2 ⟨xs, hxs, hws⟩,
      (writes_iff_exists_map _ vs).2 ⟨_, hzs, hvs⟩, rfl⟩
  · rintro ⟨ws, vs, hws, hvs, rfl⟩
    obtain ⟨xs, hxs, hxs'⟩ := (writes_iff_exists_map _ ws).1 hws
    obtain ⟨zs, hzs, hzs'⟩ := (writes_iff_exists_map _ vs).1 hvs
    obtain ⟨y, ys, rfl, hy, hys⟩ := List.map_eq_cons_iff.1 hzs
    obtain rfl := hsign y hy
    refine (writes_iff_exists_map _ _).2 ⟨xs ++ .sign s :: ys, ?_, ?_⟩
    · rw [List.map_append, hxs, hzs]
    · exact (spells_append_iff (hlast xs hxs) s ys _).2 ⟨ws, vs, hxs', hzs', rfl⟩

/-- Something has to follow a caret. -/
lemma Writes.getLast?_ne_caret {cs : List Char} {ws : List WrittenTerm} (h : Writes cs ws) :
    cs.getLast? ≠ some '^' := by
  intro hlast
  obtain ⟨ys, rfl, hspells⟩ := (writes_iff_exists_map cs ws).1 h
  obtain ⟨st, hst, hfinish⟩ := (exists_spells_iff ys).1 ⟨ws, hspells⟩
  rw [List.getLast?_map] at hlast
  obtain ⟨y, hy, hcaret⟩ := Option.map_eq_some_iff.1 hlast
  obtain rfl : y = .caret := Symbol.char_injective hcaret
  rw [Stage.finish?_of_isCaret ((Stage.isCaret_iff hst).2 hy)] at hfinish
  cases hfinish

/-- The first term of an expression that does not begin with a sign has none, and may be given a
plus sign. -/
lemma Writes.plus {c : Char} {cs : List Char} {ws : List WrittenTerm} (h : Writes (c :: cs) ws)
    (hc : ∀ s : Sign, c ≠ s.char) :
    ∃ vs, Writes ('+' :: c :: cs) vs ∧ vs.map WrittenTerm.exact = ws.map WrittenTerm.exact := by
  obtain ⟨hjoin, hchars⟩ := h
  cases ws with
  | nil => cases hchars
  | cons w ws =>
      obtain ⟨_ | s, b⟩ := w
      · refine ⟨⟨some .plus, b⟩ :: ws, ⟨hjoin, ?_⟩, ?_⟩
        · rw [← hchars]
          rfl
        · rw [List.map_cons, List.map_cons]
          rcases b with n | ⟨n, _ | p⟩ <;> rfl
      · cases hchars
        exact absurd rfl (hc s)

/-! ## Texts -/

lemma nonBlank_append (a b : String) : nonBlank (a ++ b) = nonBlank a ++ nonBlank b := by
  rw [nonBlank, String.toList_append, List.filter_append]
  rfl

lemma valuesOf_append_eq_ok {ws vs : List WrittenTerm} {ts : List Term} :
    valuesOf (ws ++ vs) = .ok ts
      ↔ ∃ ta tb, valuesOf ws = .ok ta ∧ valuesOf vs = .ok tb ∧ ts = ta ++ tb := by
  simp only [valuesOf_eq_ok_iff, List.map_append]
  constructor
  · intro h
    obtain ⟨ta, tb, rfl, hta, htb⟩ := List.map_eq_append_iff.1 h
    exact ⟨ta, tb, hta, htb, rfl⟩
  · rintro ⟨ta, tb, hta, htb, rfl⟩
    rw [List.map_append, hta, htb]

variable {a b : String}

lemma termsOfText_append_iff (ha : (nonBlank a).getLast? ≠ some '^')
    (hb : ∃ s : Sign, (nonBlank b).head? = some s.char) (ts : List Term) :
    termsOfText (a ++ b) = .ok ts
      ↔ ∃ ta tb, termsOfText a = .ok ta ∧ termsOfText b = .ok tb ∧ ts = ta ++ tb := by
  obtain ⟨s, hs⟩ := hb
  obtain ⟨ds, hds⟩ := List.head?_eq_some_iff.1 hs
  simp only [termsOfText_eq_ok_iff, nonBlank_append, hds, writes_append_iff ha s]
  constructor
  · rintro ⟨_, ⟨ws, vs, hws, hvs, rfl⟩, hvalues⟩
    obtain ⟨ta, tb, hta, htb, rfl⟩ := valuesOf_append_eq_ok.1 hvalues
    exact ⟨ta, tb, ⟨ws, hws, hta⟩, ⟨vs, hvs, htb⟩, rfl⟩
  · rintro ⟨ta, tb, ⟨ws, hws, hta⟩, ⟨vs, hvs, htb⟩, rfl⟩
    exact ⟨ws ++ vs, ⟨ws, vs, hws, hvs, rfl⟩, valuesOf_append_eq_ok.2 ⟨ta, tb, hta, htb, rfl⟩⟩

lemma getLast?_nonBlank_of_termsOfText {ts : List Term} (h : termsOfText a = .ok ts) :
    (nonBlank a).getLast? ≠ some '^' := by
  obtain ⟨ws, hws, -⟩ := (termsOfText_eq_ok_iff a ts).1 h
  exact hws.getLast?_ne_caret

/-- A plus sign in front of an expression without a sign changes nothing. -/
lemma termsOfText_plus (hb : ∃ c, (nonBlank b).head? = some c ∧ ∀ s : Sign, c ≠ s.char)
    {ts : List Term} (h : termsOfText b = .ok ts) : termsOfText ("+" ++ b) = .ok ts := by
  obtain ⟨c, hc, hsign⟩ := hb
  obtain ⟨cs, hcs⟩ := List.head?_eq_some_iff.1 hc
  obtain ⟨ws, hws, hvalues⟩ := (termsOfText_eq_ok_iff b ts).1 h
  obtain ⟨vs, hvs, hexact⟩ := Writes.plus (hcs ▸ hws) hsign
  refine (termsOfText_eq_ok_iff _ ts).2 ⟨vs, ?_, ?_⟩
  · rw [nonBlank_append, hcs]
    exact hvs
  · rw [valuesOf_eq_ok_iff, hexact, ← valuesOf_eq_ok_iff, hvalues]

/-! ## Sums -/

/-- A text that has the terms of two others has their sum for its polynomial, if they can be
added. -/
lemma Polynomial.ofText_of_sumOfTexts {text : String} {r : Polynomial}
    (h : sumOfTexts a b = .ok r)
    (htext : ∀ ta tb, termsOfText a = .ok ta → termsOfText b = .ok tb →
      termsOfText text = .ok (ta ++ tb)) : ofText text = .ok r := by
  obtain ⟨m, hm, n, hn, -, hr⟩ := (sumOfTexts_eq_ok_iff a b r).1 h
  obtain ⟨ta, hta, rfl⟩ := (ExactPolynomial.ofText?_eq_some_iff a m).1 hm
  obtain ⟨tb, htb, rfl⟩ := (ExactPolynomial.ofText?_eq_some_iff b n).1 hn
  rw [ofText_eq_ok_iff, ExactPolynomial.ofText?_eq_some_iff]
  exact ⟨ta ++ tb, htext ta tb hta htb, by rw [ExactPolynomial.ofTerms_append, hr]⟩

/-- **Texts are glued together at a sign.**  If the second text begins with a sign and the first
does not end with a caret, blanks apart, the terms of both together are those of the first followed
by those of the second, and there are none if one of the texts has none.

So the sum of two expressions, if there is one, is the polynomial of the two written one behind the
other.  Where the second begins with a digit or a letter, a plus sign goes in between. -/
theorem termsOfText_append (a b : String) :
    ((∃ c ∈ "+-".toList, (nonBlank b).head? = some c) → (nonBlank a).getLast? ≠ some '^' →
      (∀ ts, termsOfText (a ++ b) = .ok ts
        ↔ ∃ ta tb, termsOfText a = .ok ta ∧ termsOfText b = .ok tb ∧ ts = ta ++ tb)
      ∧ ∀ r, Polynomial.sumOfTexts a b = .ok r → Polynomial.ofText (a ++ b) = .ok r)
    ∧ ((∃ c ∈ "x0123456789".toList, (nonBlank b).head? = some c) →
      ∀ r, Polynomial.sumOfTexts a b = .ok r → Polynomial.ofText (a ++ "+" ++ b) = .ok r) := by
  constructor
  case left =>
    rintro ⟨c, hc, hhead⟩ ha
    have hsign : ∃ s : Sign, (nonBlank b).head? = some s.char := by
      rcases List.mem_pair.1 hc with rfl | rfl
      · exact ⟨.plus, hhead⟩
      · exact ⟨.minus, hhead⟩
    have happend := termsOfText_append_iff ha hsign
    refine ⟨happend, fun r hr => Polynomial.ofText_of_sumOfTexts hr fun ta tb hta htb => ?_⟩
    exact (happend _).2 ⟨ta, tb, hta, htb, rfl⟩
  case right =>
    rintro ⟨c, hc, hhead⟩ r hr
    have hunsigned : ∀ s : Sign, c ≠ s.char := by
      rintro s rfl
      cases s <;> simp [Sign.char] at hc
    refine Polynomial.ofText_of_sumOfTexts hr fun ta tb hta htb => ?_
    have hplus : ∃ s : Sign, (nonBlank ("+" ++ b)).head? = some s.char :=
      ⟨.plus, by rw [nonBlank_append]; rfl⟩
    rw [String.append_assoc]
    exact (termsOfText_append_iff (getLast?_nonBlank_of_termsOfText hta) hplus _).2
      ⟨ta, tb, hta, termsOfText_plus ⟨c, hhead, hunsigned⟩ htb, rfl⟩

/-- A cut between a signed exponent and the sign of a term, one behind a sign that is left alone,
and a second text without a sign. -/
theorem termsOfText_append_signs :
    let a := "2x^-1 "
    let b := "\t- 2x^-1 + 07"
    let r : Polynomial := ⟨[⟨7, 0⟩], by decide⟩
    let q : Polynomial := ⟨[⟨1, 1⟩, ⟨2, -1⟩], by decide⟩
    termsOfText (a ++ b) = .ok [⟨2, -1⟩, ⟨-2, -1⟩, ⟨7, 0⟩]
      ∧ (∀ ts, termsOfText ("3 -" ++ b) ≠ .ok ts)
      ∧ Polynomial.sumOfTexts a b = .ok r ∧ Polynomial.ofText (a ++ b) = .ok r
      ∧ Polynomial.sumOfTexts a "x" = .ok q ∧ Polynomial.ofText (a ++ "+" ++ "x") = .ok q := by
  intro a b r q
  have ha : termsOfText a = .ok [⟨2, -1⟩] := by decide +kernel
  have hb : termsOfText b = .ok [⟨-2, -1⟩, ⟨7, 0⟩] := by decide +kernel
  have hfirst : ∃ c ∈ "+-".toList, (nonBlank b).head? = some c := ⟨'-', by decide +kernel⟩
  have hsum : Polynomial.sumOfTexts a b = .ok r := by decide +kernel
  have hsum' : Polynomial.sumOfTexts a "x" = .ok q := by decide +kernel
  have hglued := (termsOfText_append a b).1 hfirst (by decide +kernel)
  refine ⟨(hglued.1 _).2 ⟨_, _, ha, hb, rfl⟩, fun ts hts => ?_, hsum, hglued.2 r hsum, hsum', ?_⟩
  · obtain ⟨ta, -, hta, -, -⟩ :=
      (((termsOfText_append "3 -" b).1 hfirst (by decide +kernel)).1 ts).1 hts
    have hnone : (termsOfText "3 -").toOption = none := by decide +kernel
    rw [hta] at hnone
    cases hnone
  · exact (termsOfText_append a "x").2 ⟨'x', by decide +kernel⟩ q hsum'

end LaurentCalc
