import LaurentCalc.Proofs.Expression.FurthestFailure
import LaurentCalc.Proofs.Expression.Location

/-!
# Viable beginnings

Where an expression is refused, the text up to there is not yet wrong: something can follow that
makes it an expression, and with the next character nothing can.  This file proves that the reader
stops exactly there, and that what it names as expected is exactly what can follow.

Both are statements about all continuations of a text.  They come down to the reader because it
has no dead ends: from every stage at most one more symbol, `Stage.completion`, makes a complete
expression.  So a beginning is viable when the reader gets through it, and nothing has to be known
about what the continuation looks like.

* `Viable` — the characters are the beginning of an expression.
* **`exists_spells_append_iff`** — the reader gets through what is viable, and no further.
* `ExpectedAfter` — a list of expectations is exact behind a beginning.
* **`expectedAfter_of_advance?`** — the expectations of the stage that is reached are.
* **`termsOfText_viable`** — what the report of a grammar error says, and that it is true.
-/

namespace LaurentCalc

/-! ## Reading as far as possible -/

namespace Stage

/-- No stage is a dead end: at most one more symbol is needed. -/
def completion : Stage → List Symbol
  | signed _ => [.indeterminate]
  | caret _ _ => [.digit 0]
  | exponentSign _ _ _ => [.digit 0]
  | _ => []

end Stage

lemma isSome_readSymbols_completion (st : Stage) : (readSymbols st st.completion).isSome := by
  cases st <;> rfl

/-- What comes first decides the stage, and the stage decides about what comes after. -/
lemma isSome_readSymbols_append (st : Stage) (xs ys : List Symbol) :
    (readSymbols st (xs ++ ys)).isSome ↔
      ∃ st', st.advance? xs = some st' ∧ (readSymbols st' ys).isSome := by
  induction xs generalizing st with
  | nil => simp [Stage.advance?]
  | cons x xs ih =>
      rw [List.cons_append, readSymbols, Stage.advance?_cons]
      cases st.step? x with
      | none => simp
      | some r => rw [Option.bind_some, Option.bind_some, Option.isSome_map, ih]

lemma readSymbols_eq_some_iff (ys : List Symbol) (ws : List WrittenTerm) :
    readSymbols .start ys = some ws ↔ Spells ys ws := by
  have hsymbols : (ys.map fun y => (⟨y, 0⟩ : Located)).map Located.symbol = ys := by
    simp [Function.comp_def]
  have hread := readWritten_eq_ok_iff (ys.map fun y => ⟨y, 0⟩) ws
  rw [readWritten_eq_ok_iff_readSymbols, hsymbols] at hread
  exact hread

lemma exists_spells_iff_isSome (ys : List Symbol) :
    (∃ ws, Spells ys ws) ↔ (readSymbols .start ys).isSome := by
  simp only [← readSymbols_eq_some_iff, Option.isSome_iff_exists]

/-- The symbols spell written terms exactly if the reader may stop behind them. -/
lemma exists_spells_iff (ys : List Symbol) :
    (∃ ws, Spells ys ws) ↔ ∃ st, Stage.start.advance? ys = some st ∧ st.finish?.isSome := by
  rw [exists_spells_iff_isSome, ← List.append_nil ys, isSome_readSymbols_append, List.append_nil]
  rfl

lemma exists_writes_iff_isSome (cs : List Char) :
    (∃ ws, Writes cs ws) ↔ ((cs.mapM Symbol.ofChar?).bind (readSymbols .start)).isSome := by
  simp only [writes_iff, ← readSymbols_eq_some_iff, Option.isSome_iff_exists,
    Option.bind_eq_some_iff]

/-- **Viability is reading without a refusal.** -/
theorem exists_spells_append_iff (ys : List Symbol) :
    (∃ zs ws, Spells (ys ++ zs) ws) ↔ ∃ st, Stage.start.advance? ys = some st := by
  simp only [exists_spells_iff_isSome, isSome_readSymbols_append]
  constructor
  · rintro ⟨zs, st, hst, -⟩
    exact ⟨st, hst⟩
  · rintro ⟨st, hst⟩
    exact ⟨st.completion, st, hst, isSome_readSymbols_completion st⟩

/-! ## What a stage expects -/

namespace Stage

/-- The last symbol read was a digit. -/
def IsNumeral : Stage → Prop
  | coefficient _ _ => True
  | exponent _ _ _ _ => True
  | _ => False

lemma isNumeral_step? {st st' : Stage} {y : Symbol} (h : (st.step? y).map Prod.snd = some st') :
    st'.IsNumeral ↔ ∃ d, y = .digit d := by
  cases st <;> cases y <;> cases h <;> simp [IsNumeral]

lemma step?_ne_start {st st' : Stage} {y : Symbol} (h : (st.step? y).map Prod.snd = some st') :
    st' ≠ start := by
  cases st <;> cases y <;> cases h <;> nofun

/-- The table of expectations against the transitions. -/
lemma mem_expected {st : Stage} (h : st ≠ start) :
    .polynomial ∉ st.expected
      ∧ (.endOfInput ∈ st.expected ↔ st.finish?.isSome)
      ∧ (∀ s, .sign ∈ st.expected ↔ (st.step? (.sign s)).isSome)
      ∧ (.indeterminate ∈ st.expected ↔ (st.step? .indeterminate).isSome)
      ∧ (.exponent ∈ st.expected ↔ (st.step? .caret).isSome)
      ∧ ∀ d, .digits ∈ st.expected ↔ (st.step? (.digit d)).isSome ∧ ¬ st.IsNumeral := by
  cases st <;> simp [expected, finish?, close?, step?, extend?, IsNumeral] at h ⊢

end Stage

/-! ## Characters -/

/-- The characters begin an expression: more of them can follow that make it one. -/
def Viable (cs : List Char) : Prop := ∃ rest ws, Writes (cs ++ rest) ws

lemma Symbol.char_injective : Function.Injective Symbol.char := by
  intro y z h
  have hy := Symbol.ofChar?_char y
  rw [h, Symbol.ofChar?_char] at hy
  exact (Option.some.inj hy).symm

lemma writes_map_char_iff (ys : List Symbol) (ws : List WrittenTerm) :
    Writes (ys.map Symbol.char) ws ↔ Spells ys ws := by
  rw [writes_iff, (mapM_ofChar?_eq_some_iff _ ys).2 rfl]
  simp

/-- What begins an expression is written with symbols, and they can be read. -/
lemma viable_iff (cs : List Char) :
    Viable cs ↔ ∃ xs, xs.map Symbol.char = cs ∧ (Stage.start.advance? xs).isSome := by
  simp only [Option.isSome_iff_exists, ← exists_spells_append_iff]
  constructor
  · rintro ⟨rest, ws, hws⟩
    obtain ⟨us, hus, hspells⟩ := (writes_iff _ ws).1 hws
    obtain ⟨xs, zs, rfl, hxs, -⟩ := List.map_eq_append_iff.1 ((mapM_ofChar?_eq_some_iff _ us).1 hus)
    exact ⟨xs, hxs, zs, ws, hspells⟩
  · rintro ⟨xs, rfl, zs, ws, hspells⟩
    refine ⟨zs.map Symbol.char, ws, ?_⟩
    rwa [← List.map_append, writes_map_char_iff]

lemma viable_map_char_iff (ys : List Symbol) :
    Viable (ys.map Symbol.char) ↔ (Stage.start.advance? ys).isSome := by
  rw [viable_iff]
  constructor
  · rintro ⟨xs, hxs, hread⟩
    rwa [← (List.map_inj_right fun _ _ => @Symbol.char_injective _ _).1 hxs]
  · exact fun hread => ⟨ys, rfl, hread⟩

instance : DecidablePred Viable := fun cs =>
  decidable_of_iff ((cs.mapM Symbol.ofChar?).bind Stage.start.advance?).isSome <| by
    simp only [viable_iff, ← mapM_ofChar?_eq_some_iff, Option.isSome_iff_exists,
      Option.bind_eq_some_iff]
    exact ⟨fun ⟨st, xs, h⟩ => ⟨xs, h.1, st, h.2⟩, fun ⟨xs, h, st, h'⟩ => ⟨st, xs, h, h'⟩⟩

/-! ## What the reader says behind a beginning -/

/-- The list names, each once, what can stand behind the characters: the end if they are an
expression, and every kind of symbol that keeps them viable.  A further digit behind a digit goes
without saying, and at the start there is only one thing to expect. -/
structure ExpectedAfter (cs : List Char) (expected : List Expectation) : Prop where
  nodup : expected.Nodup
  start : cs = [] → expected = [.polynomial]
  polynomial : cs ≠ [] → .polynomial ∉ expected
  endOfInput : cs ≠ [] → (.endOfInput ∈ expected ↔ ∃ ws, Writes cs ws)
  sign : cs ≠ [] → ∀ s : Sign, .sign ∈ expected ↔ Viable (cs ++ [s.char])
  indeterminate : cs ≠ [] → (.indeterminate ∈ expected ↔ Viable (cs ++ ['x']))
  exponent : cs ≠ [] → (.exponent ∈ expected ↔ Viable (cs ++ ['^']))
  digits : cs ≠ [] → ∀ d : Digit,
    .digits ∈ expected ↔ Viable (cs ++ [d.char]) ∧ ∀ e : Digit, cs.getLast? ≠ some e.char

section Behind

variable {xs : List Symbol} {st : Stage} (h : Stage.start.advance? xs = some st)
include h

lemma viable_append_iff (y : Symbol) :
    Viable (xs.map Symbol.char ++ [y.char]) ↔ (st.step? y).isSome := by
  have hsplit : xs.map Symbol.char ++ [y.char] = (xs ++ [y]).map Symbol.char := by simp
  rw [hsplit, viable_map_char_iff, Stage.advance?_append_singleton, h, Option.bind_some,
    Option.isSome_map]

lemma exists_writes_iff : (∃ ws, Writes (xs.map Symbol.char) ws) ↔ st.finish?.isSome := by
  simp only [writes_map_char_iff, exists_spells_iff, h, Option.some.injEq, exists_eq_left']

/-- Behind the last symbol the stage is not the first one, and knows whether it was a digit. -/
lemma stage_of_ne_nil (hxs : xs ≠ []) :
    st ≠ .start ∧ (st.IsNumeral ↔ ∃ d : Digit, (xs.map Symbol.char).getLast? = some d.char) := by
  obtain ⟨init, y, rfl⟩ := (List.eq_nil_or_concat xs).resolve_left hxs
  rw [List.concat_eq_append] at h ⊢
  rw [Stage.advance?_append_singleton] at h
  obtain ⟨st', -, hstep⟩ := Option.bind_eq_some_iff.1 h
  refine ⟨Stage.step?_ne_start hstep, ?_⟩
  rw [Stage.isNumeral_step? hstep, List.map_append, List.map_singleton, List.getLast?_concat]
  simp only [Option.some.injEq]
  constructor
  · rintro ⟨d, rfl⟩
    exact ⟨d, rfl⟩
  · rintro ⟨d, hd⟩
    exact ⟨d, Symbol.char_injective hd⟩

/-- **A stage expects what is viable.** -/
theorem expectedAfter_of_advance? : ExpectedAfter (xs.map Symbol.char) st.expected := by
  have hnil : xs = [] → st = .start := by
    rintro rfl
    exact (Option.some.inj h).symm
  have hlater : xs.map Symbol.char ≠ [] →
      st ≠ .start ∧ (st.IsNumeral ↔ ∃ d : Digit, (xs.map Symbol.char).getLast? = some d.char) :=
    fun hne => stage_of_ne_nil h (mt (congrArg (List.map Symbol.char)) hne)
  constructor
  case nodup => cases st <;> simp [Stage.expected]
  case start =>
      intro hcs
      rw [hnil (List.map_eq_nil_iff.1 hcs)]
      rfl
  case polynomial => exact fun hne => (Stage.mem_expected (hlater hne).1).1
  case endOfInput =>
      intro hne
      rw [exists_writes_iff h]
      exact (Stage.mem_expected (hlater hne).1).2.1
  case sign =>
      intro hne s
      exact ((Stage.mem_expected (hlater hne).1).2.2.1 s).trans (viable_append_iff h (.sign s)).symm
  case indeterminate =>
      intro hne
      exact (Stage.mem_expected (hlater hne).1).2.2.2.1.trans
        (viable_append_iff h .indeterminate).symm
  case exponent =>
      intro hne
      exact (Stage.mem_expected (hlater hne).1).2.2.2.2.1.trans (viable_append_iff h .caret).symm
  case digits =>
      intro hne d
      rw [(Stage.mem_expected (hlater hne).1).2.2.2.2.2 d, (hlater hne).2,
        ← viable_append_iff h (.digit d)]
      simp [Symbol.char]

end Behind

/-! ## Grammar errors -/

lemma nonBlank_take {xs zs : List Located} {text : String} {y : Located}
    (h : locate text = .ok (xs ++ y :: zs)) :
    (nonBlank text).take xs.length = (xs.map Located.symbol).map Symbol.char
      ∧ (nonBlank text)[xs.length]? = some y.symbol.char
      ∧ (nonBlank text).take (xs.length + 1)
        = (xs.map Located.symbol).map Symbol.char ++ [y.symbol.char] := by
  have htext := nonBlank_of_locate h
  rw [htext]
  simp [List.take_append, List.take_of_length_le]

/-- A text without illegal characters that is no expression is refused by the reader. -/
lemma exists_readWritten_eq_error {text : String}
    (hlegal : ∀ c ∈ nonBlank text, c ∈ "x+-^0123456789".toList)
    (hgrammar : ¬ ∃ ws, Writes (nonBlank text) ws) :
    ∃ ys r, locate text = .ok ys ∧ readWritten ys = .error r ∧ readTerms text = .error r := by
  obtain ⟨ys, hys⟩ := (exists_locate_iff text).2 hlegal
  cases hread : readWritten ys with
  | ok ws => exact absurd ⟨ws, (exists_readWritten_iff text ws).1 ⟨ys, hys, hread⟩⟩ hgrammar
  | error r =>
      refine ⟨ys, r, hys, hread, ?_⟩
      simp [readTerms, hys, hread, bind, Except.bind]

/-- **A grammar error stands at the end of the longest viable beginning.**  It names the character
there and its place in the text as given, or the end of the text, and what is viable instead; that
is also where the rules of the grammar have got furthest when they are tried in order. -/
theorem termsOfText_viable (text : String)
    (hlegal : ∀ c ∈ nonBlank text, c ∈ "x+-^0123456789".toList)
    (hgrammar : ¬ ∃ ws, Writes (nonBlank text) ws) :
    ∃ k expected refusal, termsOfText text = .error (.malformed text refusal)
      ∧ k ≤ (nonBlank text).length
      ∧ Viable ((nonBlank text).take k)
      ∧ ExpectedAfter ((nonBlank text).take k) expected
      ∧ (∃ ys, locate text = .ok ys ∧ refusal.message = OrderedChoice.report ys)
      ∧ ((∃ before after c, text.toList = before ++ c :: after
            ∧ (before.filter fun b => !isBlank b) = (nonBlank text).take k
            ∧ (nonBlank text)[k]? = some c
            ∧ ¬ Viable ((nonBlank text).take (k + 1))
            ∧ refusal.message = "unexpected '" ++ c.toString ++ "' at position "
              ++ Decimal.text (before.length + 1) ++ ", expected "
              ++ " or ".intercalate (expected.map Expectation.words))
          ∨ (k = (nonBlank text).length
            ∧ refusal.message = "unexpected end of input, expected "
              ++ " or ".intercalate (expected.map Expectation.words))) := by
  obtain ⟨ys, refusal, hys, hread, hterms⟩ := exists_readWritten_eq_error hlegal hgrammar
  have hfails : termsOfText text = .error (.malformed text refusal) := by
    rw [termsOfText, hterms]
    rfl
  have hreport : ∃ ys, locate text = .ok ys ∧ refusal.message = OrderedChoice.report ys :=
    ⟨ys, hys, OrderedChoice.message_eq_report hread⟩
  rcases readFrom_eq_error hread with ⟨xs, y, zs, st, rfl, hst, hstep, rfl⟩ | ⟨st, hst, -, rfl⟩
  · obtain ⟨htake, hget, htake'⟩ := nonBlank_take hys
    obtain ⟨before, after, htext, hposition, hbefore⟩ := exists_of_locateFrom hys
    refine ⟨xs.length, st.expected, _, hfails, ?_, ?_, ?_, hreport,
      .inl ⟨before, after, y.symbol.char, htext, ?_, hget, ?_, ?_⟩⟩
    · exact Nat.le_of_lt (List.getElem?_eq_some_iff.1 hget).1
    · rw [htake, viable_map_char_iff, hst]
      rfl
    · rw [htake]
      exact expectedAfter_of_advance? hst
    · rw [hbefore, htake]
    · rw [htake', viable_append_iff hst, hstep]
      simp
    · rw [Refusal.message_unexpectedSymbol, hposition, Nat.add_comm 1]
  · have htext := nonBlank_of_locate hys
    refine ⟨(nonBlank text).length, st.expected, _, hfails, Nat.le_refl _, ?_, ?_, hreport,
      .inr ⟨rfl, rfl⟩⟩
    · rw [List.take_length, htext, viable_map_char_iff, hst]
      rfl
    · rw [List.take_length, htext]
      exact expectedAfter_of_advance? hst

/-- Behind `3x` no digit is viable, and blanks count for the position; behind `x^-` the end of the
text is not enough. -/
theorem termsOfText_viable_stuck :
    (∃ k refusal, termsOfText "3 x\t2" = .error (.malformed "3 x\t2" refusal)
        ∧ Viable ((nonBlank "3 x\t2").take k) ∧ ¬ Viable ((nonBlank "3 x\t2").take (k + 1))
        ∧ refusal.message
          = "unexpected '2' at position 5, expected end of input or a sign or an exponent")
      ∧ ∃ k refusal, termsOfText "x^ -" = .error (.malformed "x^ -" refusal)
        ∧ Viable ((nonBlank "x^ -").take k)
        ∧ refusal.message = "unexpected end of input, expected digits" := by
  have hsymbol : termsOfText "3 x\t2" = .error (.malformed "3 x\t2"
      (.unexpectedSymbol (.digit 2) 5 [.endOfInput, .sign, .exponent])) := by rfl
  have hend : termsOfText "x^ -" = .error (.malformed "x^ -" (.unexpectedEnd [.digits])) := by rfl
  constructor
  · obtain ⟨k, expected, refusal, hfails, -, hviable, -, -, h⟩ :=
      termsOfText_viable "3 x\t2" ((exists_locate_iff _).1 ⟨_, rfl⟩)
        (mt (exists_writes_iff_isSome _).1 (by decide))
    cases hsymbol.symm.trans hfails
    rcases h with ⟨before, after, c, -, -, -, hnot, -⟩ | ⟨rfl, -⟩
    · exact ⟨k, _, hsymbol, hviable, hnot, by decide +kernel⟩
    · exact absurd hviable (by decide)
  · obtain ⟨k, expected, refusal, hfails, -, hviable, -⟩ :=
      termsOfText_viable "x^ -" ((exists_locate_iff _).1 ⟨_, rfl⟩)
        (mt (exists_writes_iff_isSome _).1 (by decide))
    cases hend.symm.trans hfails
    exact ⟨k, _, hend, hviable, by decide +kernel⟩

end LaurentCalc
