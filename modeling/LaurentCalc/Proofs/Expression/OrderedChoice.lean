import LaurentCalc.Proofs.Expression.Reading
import Mathlib.Tactic.SplitIfs

/-!
# Expressions by ordered choice

The grammar of expressions is usually written down as rules that are tried in order:

```
digits     = digit+
power      = "^" sign? digits
letter     = "x" power?
body       = digits letter? | letter
term       = sign? body
polynomial = (term (&sign term)*)? end
```

Each rule takes what it can get and is not asked again: `digits` never gives a digit back, a
`power?` that fails in the middle leaves the caret where it was, and the second alternative of
`body` is only looked at when the first one fails.  So it is not obvious that nothing is lost by
it.  Here the rules are functions with exactly these habits, and `polynomial_eq_some_iff` says
that they accept every spelling and nothing else; `readWritten_eq_polynomial` that they agree with
the reader that goes symbol by symbol.

Every rule has two lemmas.  What it reads spells the symbols that are gone (`_spells`), and it
reads a spelling back when what follows cannot be taken for more of it, which is `Ends` (`_append`).
Behind a term only a sign or the end can follow; that is a `Boundary` and ends every term.
-/

namespace LaurentCalc.OrderedChoice

/-! ## The rules -/

/-- Reads something off the front of the symbols and leaves the rest, or fails. -/
abbrev Rule (α : Type) := List Symbol → Option (α × List Symbol)

/-- An optional part: where it fails, nothing is read. -/
def maybe {α : Type} (p : Rule α) (ys : List Symbol) : Option α × List Symbol :=
  match p ys with
  | some (a, zs) => (some a, zs)
  | none => (none, ys)

def sign : Rule Sign
  | .sign s :: ys => some (s, ys)
  | _ => none

/-- All the digits there are, behind those of `n`. -/
def digitsFrom (n : Numeral) : List Symbol → Numeral × List Symbol
  | .digit d :: ys => digitsFrom (n.push d) ys
  | ys => (n, ys)

def digits : Rule Numeral
  | .digit d :: ys => some (digitsFrom (.single d) ys)
  | _ => none

def power : Rule Power
  | .caret :: ys =>
      let e := maybe sign ys
      (digits e.2).map fun m => (⟨e.1, m.1⟩, m.2)
  | _ => none

def letter : Rule (Option Power)
  | .indeterminate :: ys => some (maybe power ys)
  | _ => none

def body : Rule Body := fun ys =>
  match digits ys with
  | some (n, zs) =>
      let v := maybe letter zs
      some (v.1.elim (.constant n) (.monomial (some n)), v.2)
  | none => (letter ys).map fun v => (.monomial none v.1, v.2)

def term : Rule WrittenTerm := fun ys =>
  let s := maybe sign ys
  (body s.2).map fun b => (⟨s.1, b.1⟩, b.2)

/-- A term, if a sign is in sight. -/
def signedTerm : Rule WrittenTerm := fun ys => if (sign ys).isSome then term ys else none

/-! ## What is read spells what is gone -/

lemma maybe_spells {α : Type} (p : Rule α) {spell : α → List Symbol}
    (h : ∀ ys a zs, p ys = some (a, zs) → ys = spell a ++ zs) (ys : List Symbol) :
    ys = (maybe p ys).1.elim [] spell ++ (maybe p ys).2 := by
  rw [maybe]
  cases hp : p ys with
  | none => rfl
  | some r => exact h ys r.1 r.2 hp

lemma sign_spells {ys zs : List Symbol} {s : Sign} (h : sign ys = some (s, zs)) :
    ys = [.sign s] ++ zs := by
  rw [sign.eq_def] at h
  split at h <;> cases h
  rfl

lemma maybe_sign_spells (ys : List Symbol) :
    ys = signSymbols (maybe sign ys).1 ++ (maybe sign ys).2 := by
  have h := maybe_spells sign (fun _ _ _ => sign_spells) ys
  cases hs : (maybe sign ys).1 <;> simpa [hs, signSymbols] using h

lemma digitsFrom_spells (n : Numeral) (ys : List Symbol) :
    n.symbols ++ ys = (digitsFrom n ys).1.symbols ++ (digitsFrom n ys).2 := by
  fun_induction digitsFrom n ys with
  | case1 n d ys ih => rw [← ih, Numeral.symbols_push, List.append_assoc]; rfl
  | case2 n ys => rfl

lemma digits_spells {ys zs : List Symbol} {n : Numeral} (h : digits ys = some (n, zs)) :
    ys = n.symbols ++ zs := by
  rw [digits.eq_def] at h
  split at h
  next d us =>
    have hspell := digitsFrom_spells (.single d) us
    rw [Option.some.inj h] at hspell
    exact hspell
  next => cases h

lemma power_spells {ys zs : List Symbol} {p : Power} (h : power ys = some (p, zs)) :
    ys = p.symbols ++ zs := by
  rw [power.eq_def] at h
  split at h
  next us =>
    obtain ⟨⟨m, vs⟩, hm, hp⟩ := Option.map_eq_some_iff.1 h
    cases hp
    have hsign := maybe_sign_spells us
    rw [digits_spells hm] at hsign
    simpa [Power.symbols] using hsign
  next => cases h

lemma letter_spells {ys zs : List Symbol} {p : Option Power} (h : letter ys = some (p, zs)) :
    ys = (.indeterminate :: p.elim [] Power.symbols) ++ zs := by
  rw [letter.eq_def] at h
  split at h
  next us =>
    have hpower := maybe_spells power (fun _ _ _ => power_spells) us
    rw [Option.some.inj h] at hpower
    exact congrArg (Symbol.indeterminate :: ·) hpower
  next => cases h

lemma body_spells {ys zs : List Symbol} {b : Body} (h : body ys = some (b, zs)) :
    ys = b.symbols ++ zs := by
  rw [body] at h
  split at h
  next n us hn =>
    have hletter := maybe_spells letter (fun _ _ _ => letter_spells) us
    cases h
    rw [digits_spells hn]
    generalize maybe letter us = r at hletter ⊢
    obtain ⟨v, vs⟩ := r
    rw [hletter]
    cases v <;> simp [Body.symbols]
  next =>
    obtain ⟨⟨p, vs⟩, hp, hb⟩ := Option.map_eq_some_iff.1 h
    cases hb
    exact letter_spells hp

lemma term_spells {ys zs : List Symbol} {w : WrittenTerm} (h : term ys = some (w, zs)) :
    ys = w.symbols ++ zs := by
  obtain ⟨⟨b, vs⟩, hb, hw⟩ := Option.map_eq_some_iff.1 h
  cases hw
  have hsign := maybe_sign_spells ys
  rw [body_spells hb] at hsign
  simpa [WrittenTerm.symbols] using hsign

lemma signedTerm_spells {ys zs : List Symbol} {w : WrittenTerm}
    (h : signedTerm ys = some (w, zs)) : ys = w.symbols ++ zs ∧ w.sign ≠ none := by
  rw [signedTerm] at h
  split at h
  next hs =>
    refine ⟨term_spells h, ?_⟩
    obtain ⟨⟨b, vs⟩, hb, hw⟩ := Option.map_eq_some_iff.1 h
    cases hw
    obtain ⟨r, hr⟩ := Option.isSome_iff_exists.1 hs
    simp [maybe, hr]
  next => cases h

/-! ## A spelling is read back -/

/-- What can follow a term: the sign of the next one, or nothing. -/
inductive Boundary : List Symbol → Prop
  | done : Boundary []
  | sign (s : Sign) (ys : List Symbol) : Boundary (.sign s :: ys)

/-- The symbols do not begin with a digit. -/
def NoDigit : List Symbol → Prop
  | .digit _ :: _ => False
  | _ => True

/-- What follows the body of a term cannot be taken for more of it. -/
def Ends : Body → List Symbol → Prop
  | .constant _, ys => NoDigit ys ∧ letter ys = none
  | .monomial _ none, ys => power ys = none
  | .monomial _ (some _), ys => NoDigit ys

lemma Boundary.ends {ys : List Symbol} (h : Boundary ys) (b : Body) : Ends b ys := by
  rcases b with n | ⟨n, _ | p⟩
  · cases h <;> exact ⟨trivial, rfl⟩
  · cases h <;> rfl
  · cases h <;> trivial

lemma maybe_eq_none {α : Type} {p : Rule α} {ys : List Symbol} (h : p ys = none) :
    maybe p ys = (none, ys) := by
  simp only [maybe, h]

lemma maybe_eq_some {α : Type} {p : Rule α} {ys zs : List Symbol} {a : α}
    (h : p ys = some (a, zs)) : maybe p ys = (some a, zs) := by
  simp only [maybe, h]

lemma digitsFrom_of_noDigit (n : Numeral) {ys : List Symbol} (h : NoDigit ys) :
    digitsFrom n ys = (n, ys) := by
  rw [digitsFrom.eq_def]
  split
  · exact absurd h id
  · rfl

/-- However a run of digits is cut, reading it takes all of it. -/
lemma digits_symbols_append (n : Numeral) (ys : List Symbol) :
    digits (n.symbols ++ ys) = some (digitsFrom n ys) := by
  induction n using Numeral.push_induction generalizing ys with
  | single d => rfl
  | push n d ih =>
      rw [Numeral.symbols_push, List.append_assoc, ih]
      rfl

lemma digits_append (n : Numeral) {ys : List Symbol} (h : NoDigit ys) :
    digits (n.symbols ++ ys) = some (n, ys) := by
  rw [digits_symbols_append, digitsFrom_of_noDigit n h]

lemma sign_numeral (n : Numeral) (ys : List Symbol) : sign (n.symbols ++ ys) = none := by
  induction n using Numeral.push_induction generalizing ys with
  | single d => rfl
  | push n d ih =>
      rw [Numeral.symbols_push, List.append_assoc]
      exact ih _

lemma power_append (p : Power) {ys : List Symbol} (h : NoDigit ys) :
    power (p.symbols ++ ys) = some (p, ys) := by
  obtain ⟨e, m⟩ := p
  have hm := digits_append m h
  cases e with
  | none =>
      have hsign := maybe_eq_none (sign_numeral m ys)
      simp only [Power.symbols, signSymbols, List.nil_append, List.cons_append, power, hsign, hm,
        Option.map_some]
  | some e =>
      have hsign : maybe sign (.sign e :: (m.symbols ++ ys)) = (some e, m.symbols ++ ys) := rfl
      simp only [Power.symbols, signSymbols, List.cons_append, List.nil_append, power, hsign, hm,
        Option.map_some]

lemma letter_append (n : Option Numeral) (p : Option Power) {ys : List Symbol}
    (h : Ends (.monomial n p) ys) :
    letter (.indeterminate :: (p.elim [] Power.symbols ++ ys)) = some (p, ys) := by
  cases p with
  | none =>
      show some (maybe power ys) = _
      rw [maybe_eq_none h]
  | some p =>
      show some (maybe power (p.symbols ++ ys)) = _
      rw [maybe_eq_some (power_append p h)]

/-- The digits before a letter are read, and the letter is left. -/
lemma digits_monomial_append (n : Numeral) (p : Option Power) (ys : List Symbol) :
    digits ((Body.monomial (some n) p).symbols ++ ys)
      = some (n, .indeterminate :: (p.elim [] Power.symbols ++ ys)) := by
  have hsplit : (Body.monomial (some n) p).symbols ++ ys
      = n.symbols ++ (.indeterminate :: (p.elim [] Power.symbols ++ ys)) := by
    simp [Body.symbols]
  rw [hsplit]
  exact digits_append n trivial

lemma body_append (b : Body) {ys : List Symbol} (h : Ends b ys) :
    body (b.symbols ++ ys) = some (b, ys) := by
  rcases b with n | ⟨_ | n, p⟩
  · simp only [body, Body.symbols, digits_append n h.1, maybe_eq_none h.2, Option.elim_none]
  · have hdigits : digits (.indeterminate :: (p.elim [] Power.symbols ++ ys)) = none := rfl
    simp only [body, Body.symbols, Option.elim_none, List.nil_append, List.cons_append, hdigits,
      letter_append none p h, Option.map_some]
  · simp only [body, digits_monomial_append, maybe_eq_some (letter_append (some n) p h),
      Option.elim_some]

lemma sign_body (b : Body) (ys : List Symbol) : sign (b.symbols ++ ys) = none := by
  rcases b with n | ⟨_ | n, p⟩
  · exact sign_numeral n ys
  · rfl
  · show sign ((n.symbols ++ _) ++ ys) = none
    rw [List.append_assoc, sign_numeral]

/-- Whether there is a sign or not, the body is read from behind it. -/
lemma maybe_sign_append (s : Option Sign) (b : Body) (ys : List Symbol) :
    maybe sign (signSymbols s ++ (b.symbols ++ ys)) = (s, b.symbols ++ ys) := by
  cases s with
  | none => exact maybe_eq_none (sign_body b ys)
  | some s => rfl

lemma term_append (w : WrittenTerm) {ys : List Symbol} (h : Ends w.body ys) :
    term (w.symbols ++ ys) = some (w, ys) := by
  simp only [term, WrittenTerm.symbols, List.append_assoc, maybe_sign_append, body_append w.body h,
    Option.map_some]

lemma signedTerm_append {w : WrittenTerm} (hw : w.sign ≠ none) {ys : List Symbol}
    (h : Ends w.body ys) : signedTerm (w.symbols ++ ys) = some (w, ys) := by
  obtain ⟨_ | s, b⟩ := w
  · exact absurd rfl hw
  · exact term_append ⟨some s, b⟩ h

/-! ## Terms one behind the other -/

lemma symbols_ne_nil (w : WrittenTerm) : w.symbols ≠ [] := by
  intro h
  have hterm := term_append w (Boundary.done.ends _)
  rw [h] at hterm
  cases hterm

lemma length_of_signedTerm {ys zs : List Symbol} {w : WrittenTerm}
    (h : signedTerm ys = some (w, zs)) : zs.length < ys.length := by
  have hpos := List.length_pos_iff.2 (symbols_ne_nil w)
  rw [(signedTerm_spells h).1, List.length_append]
  omega

/-- As many terms with signs as can be read. -/
def following (ys : List Symbol) : List WrittenTerm × List Symbol :=
  match h : signedTerm ys with
  | some (w, zs) =>
      have := length_of_signedTerm h
      (w :: (following zs).1, (following zs).2)
  | none => ([], ys)
termination_by ys.length

/-- The written terms of an expression. -/
def polynomial (ys : List Symbol) : Option (List WrittenTerm) :=
  match term ys with
  | some (w, zs) => if (following zs).2 = [] then some (w :: (following zs).1) else none
  | none => if ys = [] then some [] else none

lemma following_spells (ys : List Symbol) :
    ys = (following ys).1.flatMap WrittenTerm.symbols ++ (following ys).2
      ∧ ∀ w ∈ (following ys).1, w.sign ≠ none := by
  fun_induction following ys with
  | case1 ys w zs h _ ih =>
      obtain ⟨hspell, hsigned⟩ := signedTerm_spells h
      refine ⟨?_, List.forall_mem_cons.2 ⟨hsigned, ih.2⟩⟩
      rw [List.flatMap_cons, List.append_assoc, ← ih.1]
      exact hspell
  | case2 ys h => exact ⟨rfl, nofun⟩

lemma boundary_flatMap {ws : List WrittenTerm} (h : ∀ w ∈ ws, w.sign ≠ none) :
    Boundary (ws.flatMap WrittenTerm.symbols) := by
  cases ws with
  | nil => exact .done
  | cons w ws =>
      obtain ⟨_ | s, b⟩ := w
      · exact absurd rfl (h _ List.mem_cons_self)
      · exact .sign s _

lemma following_flatMap {ws : List WrittenTerm} (h : ∀ w ∈ ws, w.sign ≠ none) :
    following (ws.flatMap WrittenTerm.symbols) = (ws, []) := by
  induction ws with
  | nil =>
      rw [following]
      rfl
  | cons w ws ih =>
      obtain ⟨hw, hws⟩ := List.forall_mem_cons.1 h
      have hterm := signedTerm_append hw ((boundary_flatMap hws).ends _)
      rw [List.flatMap_cons, following.eq_def]
      split
      next v zs hv =>
        cases hterm.symm.trans hv
        rw [ih hws]
      next hv =>
        rw [hterm] at hv
        cases hv

/-- **Ordered choice loses nothing.**  The rules accept the spellings of written terms, and read
the terms that are spelled. -/
theorem polynomial_eq_some_iff (ys : List Symbol) (ws : List WrittenTerm) :
    polynomial ys = some ws ↔ Spells ys ws := by
  constructor
  · intro h
    rw [polynomial] at h
    split at h
    next w zs hterm =>
      split_ifs at h with hend
      cases h
      obtain ⟨hspell, hsigned⟩ := following_spells zs
      refine ⟨hsigned, ?_⟩
      rw [hend, List.append_nil] at hspell
      rw [List.flatMap_cons, ← hspell, ← term_spells hterm]
    next =>
      split_ifs at h with hnil
      cases h
      exact ⟨nofun, hnil.symm⟩
  · rintro ⟨hjoin, rfl⟩
    cases ws with
    | nil => rfl
    | cons w ws =>
        have hsigned : ∀ v ∈ ws, v.sign ≠ none := hjoin
        rw [polynomial, List.flatMap_cons, term_append w ((boundary_flatMap hsigned).ends _)]
        simp [following_flatMap hsigned]

/-- Reading symbol by symbol comes to the same as trying the rules in order. -/
theorem readWritten_eq_polynomial (ys : List Located) :
    (readWritten ys).toOption = polynomial (ys.map Located.symbol) := by
  rw [readWritten, toOption_readFrom]
  refine Option.ext fun ws => ?_
  rw [polynomial_eq_some_iff, ← readWritten_eq_ok_iff, readWritten_eq_ok_iff_readSymbols]

end LaurentCalc.OrderedChoice
