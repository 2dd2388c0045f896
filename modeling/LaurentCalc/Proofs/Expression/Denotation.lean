import LaurentCalc.Expression.Stage
import LaurentCalc.Proofs.Expression.OrderedChoice

/-!
# What an expression denotes

An expression is a text, and what it denotes is a list of terms.  Both sides are described here
without the reader: the text as the characters of written terms with blanks in between, the terms
as pairs of unbounded integers.  `termsOfText_grammar` says that the reader succeeds on exactly
these texts, provided their integers fit, and returns exactly these terms.

* `WrittenTerm.exact` — the coefficient and the exponent that a written term denotes.
* `WrittenTerm.integers` — the integers that stand in it, fit or not.
* `nonBlank`, `Writes` — the characters that count, and the written terms they write.
* **`term_eq_ok_iff`** — a written term has a value when what it denotes fits, and no other.
-/

namespace LaurentCalc

/-! ## Exact values -/

/-- The coefficient and the exponent. -/
def Term.exact (t : Term) : Int × Int := (t.coefficient.toInt, t.exponent.toInt)

namespace WrittenTerm

/-- The coefficient: a missing number stands for one. -/
def exactCoefficient : WrittenTerm → Int
  | ⟨s, .constant n⟩ => (s.getD .plus).apply n.value
  | ⟨s, .monomial n _⟩ => (s.getD .plus).apply (n.elim 1 Numeral.value)

/-- The exponent: zero without an `x`, and one where no exponent is written. -/
def exactExponent : WrittenTerm → Int
  | ⟨_, .constant _⟩ => 0
  | ⟨_, .monomial _ none⟩ => 1
  | ⟨_, .monomial _ (some p)⟩ => (p.sign.getD .plus).apply p.numeral.value

def exact (w : WrittenTerm) : Int × Int := (w.exactCoefficient, w.exactExponent)

/-- The integers that are written out, the exponent before the coefficient. -/
def integers : WrittenTerm → List (Sign × Numeral)
  | ⟨s, .constant n⟩ => [(s.getD .plus, n)]
  | ⟨s, .monomial n p⟩ =>
      (p.map fun p => (p.sign.getD .plus, p.numeral)).toList
        ++ (n.map fun n => (s.getD .plus, n)).toList

end WrittenTerm

lemma integer_eq_ok_iff (s : Option Sign) (n : Numeral) (w : Int64) :
    integer s n = .ok w ↔ w.toInt = (s.getD .plus).apply n.value := by
  rw [integer, ← int64?_eq_some_iff]
  cases int64? ((s.getD .plus).apply n.value) <;> simp

lemma coefficient_eq_ok_iff (s : Option Sign) (n : Option Numeral) (w : Int64) :
    Body.coefficient s n = .ok w ↔ w.toInt = (s.getD .plus).apply (n.elim 1 Numeral.value) := by
  cases n with
  | some n => exact integer_eq_ok_iff s n w
  | none =>
      have hunit :
          (if s = some .minus then (-1 : Int64) else 1).toInt = (s.getD .plus).apply 1 := by
        rcases s with _ | _ | _ <;> rfl
      rw [Option.elim_none, ← hunit, Int64.toInt_inj]
      simp [Body.coefficient, eq_comm]

lemma exponent_eq_ok_iff (p : Option Power) (w : Int64) :
    Power.exponent p = .ok w
      ↔ w.toInt = p.elim 1 fun p => (p.sign.getD .plus).apply p.numeral.value := by
  cases p with
  | some p => exact integer_eq_ok_iff p.sign p.numeral w
  | none =>
      show Except.ok 1 = Except.ok w ↔ w.toInt = (1 : Int64).toInt
      rw [Int64.toInt_inj]
      simp [eq_comm]

/-- **A written term has the value that it denotes**, if that fits. -/
theorem term_eq_ok_iff (w : WrittenTerm) (t : Term) : w.term = .ok t ↔ t.exact = w.exact := by
  obtain ⟨c, e⟩ := t
  rcases w with ⟨s, n | ⟨n, p⟩⟩
  · have hzero : e.toInt = 0 ↔ e = 0 := toInt_eq_zero_iff
    have hc := integer_eq_ok_iff s n c
    simp only [WrittenTerm.term, Term.exact, WrittenTerm.exact, WrittenTerm.exactCoefficient,
      WrittenTerm.exactExponent, Prod.mk.injEq, ← hc, hzero]
    cases integer s n <;> simp [bind, Except.bind, pure, Except.pure, eq_comm]
  · have hp : (WrittenTerm.mk s (.monomial n p)).exactExponent
        = p.elim 1 fun p => (p.sign.getD .plus).apply p.numeral.value := by
      cases p <;> rfl
    have hc := coefficient_eq_ok_iff s n c
    have he := exponent_eq_ok_iff p e
    simp only [WrittenTerm.term, Term.exact, WrittenTerm.exact, WrittenTerm.exactCoefficient,
      hp, Prod.mk.injEq, ← hc, ← he]
    cases Power.exponent p <;> cases Body.coefficient s n <;>
      simp [bind, Except.bind, pure, Except.pure, and_comm]

/-- What a written term denotes fits only if every integer in it does. -/
lemma WrittenTerm.fits_integers {w : WrittenTerm} {t : Term} (h : t.exact = w.exact) :
    ∀ i ∈ w.integers, Fits (i.1.apply i.2.value) := by
  obtain ⟨hcoefficient, hexponent⟩ := Prod.mk.inj h
  have hc : Fits w.exactCoefficient := hcoefficient ▸ fits_toInt t.coefficient
  have he : Fits w.exactExponent := hexponent ▸ fits_toInt t.exponent
  intro i hi
  rcases w with ⟨s, n | ⟨n, p⟩⟩
  · obtain rfl := List.mem_singleton.1 hi
    exact hc
  · rcases List.mem_append.1 hi with hi | hi
    · cases p with
      | none => simp at hi
      | some p =>
          obtain rfl := List.mem_singleton.1 hi
          exact he
    · cases n with
      | none => simp at hi
      | some n =>
          obtain rfl := List.mem_singleton.1 hi
          exact hc

lemma valuesOf_cons_eq_ok {w : WrittenTerm} {ws : List WrittenTerm} {ts : List Term} :
    valuesOf (w :: ws) = .ok ts ↔ ∃ t us, ts = t :: us ∧ w.term = .ok t ∧ valuesOf ws = .ok us := by
  simp only [valuesOf, List.mapM_cons]
  cases w.term with
  | error e => simp [bind, Except.bind]
  | ok t =>
      cases ws.mapM WrittenTerm.term <;> simp [bind, Except.bind, pure, Except.pure, eq_comm]

lemma valuesOf_eq_ok_iff (ws : List WrittenTerm) (ts : List Term) :
    valuesOf ws = .ok ts ↔ ts.map Term.exact = ws.map WrittenTerm.exact := by
  induction ws generalizing ts with
  | nil => simp [valuesOf, pure, Except.pure, eq_comm]
  | cons w ws ih =>
      rw [valuesOf_cons_eq_ok, List.map_cons, List.map_eq_cons_iff]
      simp only [term_eq_ok_iff, ih]

/-! ## From characters to terms -/

/-- The characters of a text that count. -/
def nonBlank (text : String) : List Char := text.toList.filter fun c => !isBlank c

def WrittenTerm.chars (w : WrittenTerm) : List Char := w.symbols.map Symbol.char

/-- The characters are those of written terms that may stand behind one another. -/
structure Writes (cs : List Char) (ws : List WrittenTerm) : Prop where
  joinable : Joinable ws
  chars : ws.flatMap WrittenTerm.chars = cs

lemma mapM_ofChar?_eq_some_iff (cs : List Char) (ys : List Symbol) :
    cs.mapM Symbol.ofChar? = some ys ↔ ys.map Symbol.char = cs := by
  induction cs generalizing ys with
  | nil => simp [eq_comm]
  | cons c cs ih =>
      simp only [List.mapM_cons, List.map_eq_cons_iff, bind, Option.bind_eq_some_iff, pure,
        Option.some.injEq, Symbol.ofChar?_eq_some_iff, ih]
      constructor
      · rintro ⟨y, hy, zs, hzs, rfl⟩
        exact ⟨y, zs, rfl, hy, hzs⟩
      · rintro ⟨y, zs, rfl, hy, hzs⟩
        exact ⟨y, hy, zs, hzs, rfl⟩

lemma flatMap_chars (ws : List WrittenTerm) :
    ws.flatMap WrittenTerm.chars = (ws.flatMap WrittenTerm.symbols).map Symbol.char := by
  rw [List.map_flatMap]
  rfl

lemma writes_iff (cs : List Char) (ws : List WrittenTerm) :
    Writes cs ws ↔ ∃ ys, cs.mapM Symbol.ofChar? = some ys ∧ Spells ys ws := by
  constructor
  · rintro ⟨hjoin, hchars⟩
    rw [flatMap_chars] at hchars
    exact ⟨_, (mapM_ofChar?_eq_some_iff cs _).2 hchars, hjoin, rfl⟩
  · rintro ⟨ys, hys, hjoin, rfl⟩
    exact ⟨hjoin, (flatMap_chars ws).trans ((mapM_ofChar?_eq_some_iff cs _).1 hys)⟩

lemma Writes.unique {cs : List Char} {ws vs : List WrittenTerm} (hw : Writes cs ws)
    (hv : Writes cs vs) : ws = vs := by
  obtain ⟨ys, hys, hws⟩ := (writes_iff cs ws).1 hw
  obtain ⟨zs, hzs, hvs⟩ := (writes_iff cs vs).1 hv
  have heq : ys = zs := Option.some.inj (hys.symm.trans hzs)
  subst heq
  exact hws.unique hvs

lemma Symbol.char_mem_alphabet (y : Symbol) : y.char ∈ "x+-^0123456789".toList := by
  rcases y with s | d | _ | _
  · cases s <;> simp [char, Sign.char]
  · revert d
    decide
  · simp [char]
  · simp [char]

/-- Whoever writes terms uses no character but these. -/
lemma Writes.mem_alphabet {cs : List Char} {ws : List WrittenTerm} (h : Writes cs ws) :
    ∀ c ∈ cs, c ∈ "x+-^0123456789".toList := by
  rw [← h.chars, flatMap_chars]
  intro c hc
  obtain ⟨y, -, rfl⟩ := List.mem_map.1 hc
  exact y.char_mem_alphabet

/-- The rules of the grammar, tried in order, find what the characters of a text write. -/
lemma polynomial_nonBlank_iff (text : String) (ws : List WrittenTerm) :
    ((nonBlank text).mapM Symbol.ofChar?).bind OrderedChoice.polynomial = some ws
      ↔ Writes (nonBlank text) ws := by
  simp only [writes_iff, Option.bind_eq_some_iff, OrderedChoice.polynomial_eq_some_iff]

/-- The first two looks at a text find the same, since the reader agrees with the grammar. -/
lemma exists_readWritten_iff (text : String) (ws : List WrittenTerm) :
    (∃ ys, locate text = .ok ys ∧ readWritten ys = .ok ws) ↔ Writes (nonBlank text) ws := by
  rw [← polynomial_nonBlank_iff, nonBlank, ← map_symbol_locate]
  cases locate text with
  | error e => simp [Except.toOption]
  | ok ys =>
      show _ ↔ OrderedChoice.polynomial (ys.map Located.symbol) = some ws
      rw [← OrderedChoice.readWritten_eq_polynomial]
      cases hread : readWritten ys <;> simp [Except.toOption, hread]

lemma termsOfText_eq_ok_iff (text : String) (ts : List Term) :
    termsOfText text = .ok ts ↔ ∃ ws, Writes (nonBlank text) ws ∧ valuesOf ws = .ok ts := by
  simp only [← exists_readWritten_iff, termsOfText, readTerms]
  cases locate text with
  | error e => simp [bind, Except.bind, Except.mapError]
  | ok ys =>
      cases hread : readWritten ys with
      | error e => simp [bind, Except.bind, Except.mapError, hread]
      | ok ws =>
          cases hvalues : valuesOf ws <;>
            simp [bind, Except.bind, Except.mapError, hread, hvalues]

/-- **The reader is the grammar.**  A text has terms exactly if its characters, the blanks left
out, are in the alphabet and write terms whose integers all fit; the terms are then what the
written ones denote, in their order.  The writing is unique, and it is the one that the rules of
the grammar find when they are tried in order. -/
theorem termsOfText_grammar (text : String) :
    (∀ ts, termsOfText text = .ok ts ↔
      (∀ c ∈ nonBlank text, c ∈ "x+-^0123456789".toList)
      ∧ ∃ ws, Writes (nonBlank text) ws
        ∧ (∀ w ∈ ws, ∀ i ∈ w.integers, Fits (i.1.apply i.2.value))
        ∧ ts.map Term.exact = ws.map WrittenTerm.exact)
    ∧ (∀ ws vs, Writes (nonBlank text) ws → Writes (nonBlank text) vs → ws = vs)
    ∧ ∀ ws, ((nonBlank text).mapM Symbol.ofChar?).bind OrderedChoice.polynomial = some ws
        ↔ Writes (nonBlank text) ws := by
  refine ⟨fun ts => ?_, fun ws vs hw hv => hw.unique hv, fun ws => ?_⟩
  · simp only [termsOfText_eq_ok_iff, valuesOf_eq_ok_iff]
    constructor
    · rintro ⟨ws, hw, hts⟩
      refine ⟨hw.mem_alphabet, ws, hw, fun w hmem => ?_, hts⟩
      obtain ⟨t, -, ht⟩ := List.mem_map.1 (hts ▸ List.mem_map_of_mem hmem)
      exact WrittenTerm.fits_integers ht
    · rintro ⟨-, ws, hw, -, hts⟩
      exact ⟨ws, hw, hts⟩
  · exact polynomial_nonBlank_iff text ws

/-- Leading zeros, a sign in an exponent before the sign of a term, and blanks in the middle. -/
theorem termsOfText_grammar_signs :
    let text := "-0 07x^-3 +\u2003x"
    let ws : List WrittenTerm :=
      [⟨some .minus, .monomial (some ⟨[7, 0, 0], by simp⟩) (some ⟨some .minus, .single 3⟩)⟩,
        ⟨some .plus, .monomial none none⟩]
    Writes (nonBlank text) ws
      ∧ (∀ vs, Writes (nonBlank text) vs → ws = vs)
      ∧ termsOfText text = .ok [⟨-7, -3⟩, ⟨1, 1⟩] := by
  intro text ws
  have hw : Writes (nonBlank text) ws := ⟨by simp [Joinable, ws], by decide⟩
  refine ⟨hw, fun vs hv => (termsOfText_grammar text).2.1 ws vs hw hv, ?_⟩
  refine ((termsOfText_grammar text).1 _).2 ⟨hw.mem_alphabet, ws, hw, ?_, rfl⟩
  decide

end LaurentCalc
