import LaurentCalc.Program
import LaurentCalc.Proofs.Polynomial.Identity
import LaurentCalc.Proofs.Program.Flags
import LaurentCalc.Proofs.Program.FrontEnds

/-!
# Printed polynomials as arguments

What the program prints can be given back to it on the command line.  That is not a matter of
course, because a polynomial may begin with a minus sign, and an argument that begins with one may
be a row of flags or the separator.  It never is: behind its sign a polynomial begins with a digit
or with the letter `x`, and these are neither hyphens nor flags.

* `IsExpression` — an argument that is taken for an expression.
* **`Invocation.ofArguments_of_isExpression`** — nothing but such arguments is a calculation.
* `Body.exists_symbols` — how a term begins behind its sign.
* **`isExpression_text`** — printed polynomials are taken for expressions.
* **`Program.run_texts`** — the program on printed polynomials.
-/

namespace LaurentCalc

/-! ## Arguments that are expressions -/

/-- The argument is neither the separator nor made of flags. -/
def IsExpression (argument : String) : Prop :=
  argument ≠ Invocation.separator ∧ flags? argument = none

/-- **Expressions alone** are kept as they are and in their order, and ask for nothing else. -/
theorem Invocation.ofArguments_of_isExpression {es : List String} (h : ∀ e ∈ es, IsExpression e) :
    ofArguments es = calculate es 0 := by
  induction es with
  | nil => rfl
  | cons e es ih =>
      obtain ⟨⟨hseparator, hflags⟩, hes⟩ := List.forall_mem_cons.1 h
      rw [ofArguments, if_neg hseparator, hflags, ih hes]
      rfl

lemma Program.run_of_isExpression {es : List String} (hne : es ≠ [])
    (h : ∀ e ∈ es, IsExpression e) (input : List UInt8) :
    run es input = ofReport (Summation.run .unlimited es) := by
  rw [run, Invocation.ofArguments_of_isExpression h]
  cases es with
  | nil => exact absurd rfl hne
  | cons e es => rfl

/-! ## How a polynomial begins -/

lemma Numeral.exists_symbols (n : Numeral) : ∃ d ds, n.symbols = .digit d :: ds := by
  cases hdigits : n.digits with
  | nil => exact absurd (List.reverse_eq_nil_iff.1 hdigits) n.reversed_ne_nil
  | cons d ds => exact ⟨d, ds.map .digit, by rw [symbols, hdigits, List.map_cons]⟩

/-- Without its sign, a term begins with a digit or with the letter. -/
lemma Body.exists_symbols (b : Body) :
    ∃ y ys, b.symbols = y :: ys ∧ y.char ∈ "x0123456789".toList := by
  have hdigit : ∀ d : Digit, (Symbol.digit d).char ∈ "x0123456789".toList := by decide
  rcases b with n | ⟨_ | n, p⟩
  · obtain ⟨d, ds, hn⟩ := n.exists_symbols
    exact ⟨_, ds, hn, hdigit d⟩
  · exact ⟨.indeterminate, _, rfl, by decide⟩
  · obtain ⟨d, ds, hn⟩ := n.exists_symbols
    exact ⟨_, _, by rw [symbols, Option.elim_some, hn, List.cons_append], hdigit d⟩

lemma Term.exists_bodyChars (t : Term) :
    ∃ c cs, t.bodyChars = c :: cs ∧ c ∈ "x0123456789".toList := by
  obtain ⟨y, ys, hys, hy⟩ := t.body.exists_symbols
  exact ⟨y.char, ys.map Symbol.char, by rw [bodyChars, hys, List.map_cons], hy⟩

/-- **A polynomial begins** with a digit or with the letter, or with a minus sign before it. -/
theorem Polynomial.exists_toList_text (p : Polynomial) :
    ∃ c ∈ "x0123456789".toList, ∃ cs, p.text.toList = c :: cs ∨ p.text.toList = '-' :: c :: cs := by
  have htext : p.text.toList = chars p.terms := by rw [text, String.toList_ofList]
  rw [htext]
  cases p.terms with
  | nil => exact ⟨'0', by decide, [], .inl rfl⟩
  | cons t ts =>
      obtain ⟨c, cs, hbody, hc⟩ := t.exists_bodyChars
      refine ⟨c, hc, cs ++ ts.flatMap followingChars, ?_⟩
      rw [chars, leadingChars, hbody]
      cases t.sign with
      | plus => exact .inl rfl
      | minus => exact .inr rfl

/-- What begins like a polynomial is an expression. -/
lemma isExpression_of_toList {argument : String} {c : Char} (hc : c ∈ "x0123456789".toList)
    {cs : List Char} (h : argument.toList = c :: cs ∨ argument.toList = '-' :: c :: cs) :
    IsExpression argument := by
  have hletters : ∀ c ∈ "x0123456789".toList, c ≠ '-' ∧ Flag.ofLetter? c = none := by
    simp [Flag.ofLetter?]
  obtain ⟨hhyphen, hletter⟩ := hletters c hc
  constructor
  · rintro rfl
    rcases h with h | h <;> cases h <;> exact hhyphen rfl
  · rcases h with h | h
    · rw [flags?, h]
      split
      next heq => exact absurd (List.cons.inj heq).1 hhyphen
      next heq => exact absurd (List.cons.inj heq).1 hhyphen
      next => rfl
    · rw [flags?_of_toList hhyphen h, List.mapM_cons, hletter]
      rfl

/-- **No printed polynomial is a flag** or the separator. -/
theorem isExpression_text (p : Polynomial) : IsExpression p.text := by
  obtain ⟨c, hc, cs, htext⟩ := p.exists_toList_text
  exact isExpression_of_toList hc htext

/-! ## The program on printed polynomials -/

lemma accepted_texts (ps : List Polynomial) : Accepted (ps.map Polynomial.text) ps := by
  rw [Accepted, List.forall₂_map_left_iff, List.forall₂_same]
  exact fun p _ => p.ofText_printed

/-- What a summation of accepted expressions writes, its sum apart. -/
lemma Summation.run_of_accepted {es : List String} {ps : List Polynomial} (h : Accepted es ps) :
    run .unlimited es
      = runFrom ⟨ps⟩ (Sink.unlimited.write (Session.shown Session.row 1 ps)) [] := by
  have hrun : runFrom .empty .unlimited (es ++ []) = _ := runFrom_append h rfl .empty []
  rwa [List.append_nil] at hrun

/-- **The program on printed polynomials.**  Each of the texts is taken for an expression, as it is
and in its place, and there are no flags among them.  The program prints them at their positions,
one on a line, and then their sum, with status zero.  If they have no sum, it ends with status one
and with a line about the overflow. -/
theorem Program.run_texts {ps : List Polynomial} (hne : ps ≠ []) (input : List UInt8) :
    Invocation.ofArguments (ps.map Polynomial.text) = .calculate (ps.map Polynomial.text) 0
    ∧ (∀ r, Polynomial.sum ps = .ok r →
        run (ps.map Polynomial.text) input
          = ⟨0, (Session.shown Session.row 1 ps ++ ("sum: " ++ r.text ++ "\n")).toUTF8, ""⟩)
    ∧ ∀ fault, Polynomial.sum ps = .error fault →
        (∃ a b, fault = .coefficientOverflow a b) ∧ OneLine fault.message
        ∧ run (ps.map Polynomial.text) input
          = ⟨1, (Session.shown Session.row 1 ps).toUTF8, "Error: " ++ fault.message ++ "\n"⟩ := by
  have hexpressions : ∀ e ∈ ps.map Polynomial.text, IsExpression e := by
    intro e he
    obtain ⟨p, -, rfl⟩ := List.mem_map.1 he
    exact isExpression_text p
  have hrun : run (ps.map Polynomial.text) input = ofReport (Summation.runFrom ⟨ps⟩
      (Sink.unlimited.write (Session.shown Session.row 1 ps)) []) := by
    rw [run_of_isExpression (mt List.map_eq_nil_iff.1 hne) hexpressions,
      Summation.run_of_accepted (accepted_texts ps)]
  refine ⟨Invocation.ofArguments_of_isExpression hexpressions, ?_, ?_⟩
  case refine_1 =>
    intro r hr
    have hsum : Session.sum ⟨ps⟩ = .ok r := hr
    rw [hrun, Summation.runFrom, hsum]
    dsimp only [Summation.conclude]
    rw [if_pos (Sink.accepts_of_unlimited rfl _), ofReport, ← Sink.write_append,
      Sink.written_unlimited]
  case refine_2 =>
    intro fault hfault
    have hsum : Session.sum ⟨ps⟩ = .error fault := hfault
    refine ⟨Polynomial.exists_of_foldlM_add_eq_error hfault,
      Session.oneLine_message_of_sum hsum, ?_⟩
    rw [hrun, Summation.runFrom, hsum]
    dsimp only [Summation.failed]
    rw [ofReport, Sink.written_unlimited]

/-- Minus signs in front, zero, and the least coefficient, which nothing can be taken from. -/
theorem Program.run_texts_signs :
    let ps : List Polynomial :=
      [⟨[⟨-1, 1⟩, ⟨1, 0⟩], by decide⟩, .zero, ⟨[⟨-3, -2⟩], by decide⟩]
    let qs : List Polynomial := [⟨[⟨-9223372036854775808, 0⟩], by decide⟩, ⟨[⟨-1, 0⟩], by decide⟩]
    (ps ≠ [] ∧ ps.map Polynomial.text = ["-x + 1", "0", "-3x^-2"]
        ∧ Invocation.ofArguments ["-x + 1", "0", "-3x^-2"]
          = .calculate ["-x + 1", "0", "-3x^-2"] 0
        ∧ run ["-x + 1", "0", "-3x^-2"] []
          = ⟨0, "1.) -x + 1\n2.) 0\n3.) -3x^-2\nsum: -x + 1 - 3x^-2\n".toUTF8, ""⟩)
      ∧ qs ≠ [] ∧ qs.map Polynomial.text = ["-9223372036854775808", "-1"]
        ∧ run ["-9223372036854775808", "-1"] []
          = ⟨1, "1.) -9223372036854775808\n2.) -1\n".toUTF8,
            "Error: coefficient overflow while adding -9223372036854775808 and -1\n"⟩ := by
  intro ps qs
  have hps : ps.map Polynomial.text = ["-x + 1", "0", "-3x^-2"] := by decide +kernel
  have hqs : qs.map Polynomial.text = ["-9223372036854775808", "-1"] := by decide +kernel
  obtain ⟨harguments, hsum, -⟩ := @run_texts ps (by decide) []
  obtain ⟨-, -, hfault⟩ := @run_texts qs (by decide) []
  rw [hps] at harguments hsum
  rw [hqs] at hfault
  have hr : Polynomial.sum ps = .ok ⟨[⟨-1, 1⟩, ⟨1, 0⟩, ⟨-3, -2⟩], by decide⟩ := by decide +kernel
  have hoverflow : Polynomial.sum qs
      = .error (.coefficientOverflow ⟨-9223372036854775808, 0⟩ ⟨-1, 0⟩) := by decide +kernel
  refine ⟨⟨by decide, hps, harguments, (hsum _ hr).trans ?_⟩, by decide, hqs,
    (hfault _ hoverflow).2.2.trans ?_⟩
  · congr 2
    decide +kernel
  · congr 2
    · decide +kernel
    · decide +kernel

end LaurentCalc
