import LaurentCalc.Proofs.Expression.OrderedChoice

/-!
# The furthest failure

When rules are tried in order, a text is refused far from where it goes wrong: a `power?` that
breaks off gives back its caret, the sum ends before it, and what is missed in the end is the end
of the text.  So a report is not made at the place where the rules give up.  All failures on the
way are watched instead, and the one that got furthest is reported, with the names of the rules
that failed there.

Here the rules are watched.  For each of them there is a function, its `Tries`, that follows the
rule and keeps book of failures: where fewest symbols were left, and which rules had failed there.
A rule that fails puts its name in the place of those of its parts, except where only one of them
has failed at its very beginning; and a run of digits is one thing, whose digits have no names.

The outcome is that all this bookkeeping comes to a table with one line for each stage, and that
the table is the one by which the reader reports, which never goes back and knows nothing of rules.

* `Attempts.fail` — how a failure is booked.
* `termTries`, `attempts`, … — the failures of each rule, and of a whole expression.
* `Reaches` — what is known of the failures: none is further than a place, and those at it.
* **`reaches_stuck`** — the table, by cases on the stage.
* **`reaches_attempts`** — no failure is further than the place where the reader is stuck; complete
  terms before it leave no trace, by induction.
* **`message_eq_report`** — the reader reports the furthest failure of the rules.
-/

namespace LaurentCalc.OrderedChoice

/-! ## Failures -/

/-- The rules that a report can name, in the order in which it does. -/
inductive RuleName where
  | endOfInput
  | sign
  | digits
  | power
  | letter
  | term
  | polynomial
deriving DecidableEq, Repr

def RuleName.words : RuleName → String
  | endOfInput => "end of input"
  | sign => "a sign"
  | digits => "digits"
  | power => "an exponent"
  | letter => "x"
  | term => "a term"
  | polynomial => "a polynomial"

def RuleName.all : List RuleName := [endOfInput, sign, digits, power, letter, term, polynomial]

/-- The failures that are remembered: of all places where a rule has failed the one with the
fewest symbols left, and the rules that have failed there. -/
structure Attempts where
  left : Nat
  names : List RuleName
deriving DecidableEq, Repr

namespace Attempts

/-- The rules that have failed with `n` symbols left, if that is the place to remember. -/
def namesAt (a : Attempts) (n : Nat) : List RuleName := if a.left = n then a.names else []

/-- A rule has failed that had been tried with `n` symbols left.  Its name takes the place of the
names of its parts, unless just one of them has failed at the same place. -/
def fail (before after : Attempts) (name : RuleName) (n : Nat) : Attempts :=
  if (after.namesAt n).length = (before.namesAt n).length + 1 then after
  else if n < after.left then ⟨n, [name]⟩
  else if n = after.left then ⟨n, after.names.take (before.namesAt n).length ++ [name]⟩
  else after

end Attempts

/-- The failures remembered when a rule has been tried, by those remembered before. -/
abbrev Tries := Attempts → List Symbol → Attempts

/-- The failures of a named rule: those of its parts, and its own. -/
def named {α : Type} (name : RuleName) (p : Rule α) (parts : Tries) : Tries := fun a ys =>
  if (p ys).isSome then parts a ys else a.fail (parts a ys) name ys.length

/-- A rule whose parts have no names. -/
def leaf {α : Type} (name : RuleName) (p : Rule α) : Tries := named name p fun a _ => a

def signTries : Tries := leaf .sign sign

def digitsTries : Tries := leaf .digits digits

def powerTries : Tries := named .power power fun a ys =>
  match ys with
  | .caret :: zs => digitsTries (signTries a zs) (maybe sign zs).2
  | _ => a

def letterTries : Tries := named .letter letter fun a ys =>
  match ys with
  | .indeterminate :: zs => powerTries a zs
  | _ => a

/-- The two alternatives of a body begin with digits and with a letter. -/
def bodyTries : Tries := fun a ys =>
  match digits ys with
  | some (_, zs) => letterTries (digitsTries a ys) zs
  | none => letterTries (digitsTries a ys) ys

def termTries : Tries := named .term term fun a ys =>
  bodyTries (signTries a ys) (maybe sign ys).2

def signedTermTries : Tries := fun a ys =>
  if (sign ys).isSome then termTries (signTries a ys) ys else signTries a ys

def followingTries (a : Attempts) (ys : List Symbol) : Attempts :=
  match h : signedTerm ys with
  | some (_, zs) =>
      have := length_of_signedTerm h
      followingTries (signedTermTries a ys) zs
  | none => signedTermTries a ys
termination_by ys.length

/-- The end of the symbols. -/
def done : Rule Unit
  | [] => some ((), [])
  | _ => none

def doneTries : Tries := leaf .endOfInput done

/-- The terms and the end, without the name of the whole. -/
def termsTries : Tries := fun a ys =>
  match term ys with
  | some (_, zs) => doneTries (followingTries (termTries a ys) zs) (following zs).2
  | none => doneTries (termTries a ys) ys

/-- The failures remembered over a whole expression. -/
def attempts (ys : List Symbol) : Attempts :=
  named .polynomial (fun ys => (polynomial ys).map fun ws => (ws, [])) termsTries ⟨ys.length, []⟩ ys

/-- The report of the furthest failure: what stands there, and which rules have failed. -/
def report (ys : List Located) : String :=
  let a := attempts (ys.map Located.symbol)
  let found := match ys[ys.length - a.left]? with
    | some y =>
        "unexpected '" ++ y.symbol.char.toString ++ "' at position " ++ Decimal.text y.position
    | none => "unexpected end of input"
  if a.names = [] then found
  else found ++ ", expected "
    ++ " or ".intercalate ((RuleName.all.filter (· ∈ a.names)).map RuleName.words)

/-! ## What is known about failures -/

namespace Attempts

/-- No failure has fewer than `m` symbols left, and those that have just as many are these. -/
structure Reaches (a : Attempts) (m : Nat) (names : List RuleName) : Prop where
  le_left : m ≤ a.left
  namesAt : a.namesAt m = names

variable {a b : Attempts} {m n : Nat} {l k : List RuleName} {name : RuleName}

lemma reaches_mk (m : Nat) (l : List RuleName) : Reaches ⟨m, l⟩ m l := ⟨Nat.le_refl m, if_pos rfl⟩

/-- Where fewer symbols are left, nothing has failed so far. -/
lemma Reaches.mono (h : a.Reaches m l) (hn : n < m) : a.Reaches n [] := by
  have hle := h.le_left
  exact ⟨by omega, if_neg (by omega)⟩

/-- A failure where more symbols are left does not matter. -/
lemma Reaches.fail_before (h : b.Reaches m l) (hn : m < n) : (a.fail b name n).Reaches m l := by
  have hnil : n ≤ b.left → l = [] := by
    intro hle
    rw [← h.namesAt, Attempts.namesAt, if_neg (by omega)]
  rw [fail]
  split_ifs with hparts hlt heq
  · exact h
  · rw [hnil (by omega)]
    exact (reaches_mk n _).mono hn
  · rw [hnil (by omega)]
    exact (reaches_mk n _).mono hn
  · exact h

/-- A failure at the place is added, instead of those of its parts. -/
lemma Reaches.fail_here (ha : a.Reaches m l) (hb : b.Reaches m (l ++ k)) (hk : k.length ≠ 1) :
    (a.fail b name m).Reaches m (l ++ [name]) := by
  have hparts : ¬ (b.namesAt m).length = (a.namesAt m).length + 1 := by
    rw [hb.namesAt, ha.namesAt, List.length_append]
    omega
  rw [fail, if_neg hparts]
  rcases Nat.lt_or_eq_of_le hb.le_left with hlt | heq
  · have hnil : l ++ k = [] := by
      rw [← hb.namesAt, Attempts.namesAt, if_neg (by omega)]
    rw [if_pos hlt, (List.append_eq_nil_iff.1 hnil).1]
    exact reaches_mk m _
  · have hnames : b.names = l ++ k := by
      rw [← hb.namesAt, Attempts.namesAt, if_pos heq.symm]
    rw [if_neg (by omega), if_pos heq, hnames, ha.namesAt, List.take_left]
    exact reaches_mk m _

end Attempts

open Attempts

section Named

variable {α : Type} {p : Rule α} {parts : Tries} {a : Attempts} {ys : List Symbol} {m : Nat}
  {l k : List RuleName} {name : RuleName}

lemma named_of_isSome (h : (p ys).isSome) : named name p parts a ys = parts a ys := if_pos h

/-- Where more symbols are left, only the parts matter. -/
lemma reaches_named (hm : m < ys.length) (h : (parts a ys).Reaches m l) :
    (named name p parts a ys).Reaches m l := by
  rw [named]
  split
  · exact h
  · exact h.fail_before hm

lemma reaches_named_here (hp : p ys = none) (ha : a.Reaches ys.length l)
    (h : (parts a ys).Reaches ys.length (l ++ k)) (hk : k.length ≠ 1) :
    (named name p parts a ys).Reaches ys.length (l ++ [name]) := by
  rw [named, hp]
  exact ha.fail_here h hk

lemma reaches_leaf (hm : m < ys.length) (h : a.Reaches m l) : (leaf name p a ys).Reaches m l :=
  reaches_named hm h

lemma reaches_leaf_here (hp : p ys = none) (h : a.Reaches ys.length l) :
    (leaf name p a ys).Reaches ys.length (l ++ [name]) :=
  reaches_named_here (k := []) hp h (by simpa using h) (by simp)

end Named

/-! ## Terms -/

lemma length_symbols_pos (n : Numeral) : 0 < n.symbols.length := by
  have hdigits := List.length_pos_iff.2 n.reversed_ne_nil
  simpa [Numeral.symbols, Numeral.digits] using hdigits

/-- What is tried behind a body that has been read. -/
def lastTries : Body → Tries
  | .constant _ => letterTries
  | .monomial _ none => powerTries
  | .monomial _ (some _) => fun a _ => a

section Append

variable {a : Attempts} {us : List Symbol} {m : Nat} {l : List RuleName}

lemma reaches_letterTries_append (n : Option Numeral) (p : Option Power)
    (hends : Ends (.monomial n p) us) (hm : m ≤ us.length) (ha : a.Reaches m [])
    (hlast : ∀ b : Attempts, b.Reaches m [] → (lastTries (.monomial n p) b us).Reaches m l) :
    (letterTries a (.indeterminate :: (p.elim [] Power.symbols ++ us))).Reaches m l := by
  rw [letterTries, named_of_isSome (by simp [letter_append n p hends])]
  rcases p with _ | ⟨e, k⟩
  · exact hlast a ha
  · have hk := length_symbols_pos k
    refine hlast _ ?_
    refine reaches_named (by simp [Power.symbols]; omega) ?_
    have hsplit : (some (Power.mk e k)).elim [] Power.symbols ++ us
        = .caret :: (signSymbols e ++ ((Body.constant k).symbols ++ us)) := by
      simp [Power.symbols, Body.symbols]
    rw [hsplit]
    dsimp only
    rw [maybe_sign_append]
    exact reaches_leaf (by simp [Body.symbols]; omega)
      (reaches_leaf (by simp [Body.symbols]; omega) ha)

lemma reaches_bodyTries_append (b : Body) (hends : Ends b us) (hm : m ≤ us.length)
    (ha : a.Reaches m [])
    (hlast : ∀ a : Attempts, a.Reaches m [] → (lastTries b a us).Reaches m l) :
    (bodyTries a (b.symbols ++ us)).Reaches m l := by
  rcases b with n | ⟨_ | n, p⟩
  · have hn := length_symbols_pos n
    rw [bodyTries, Body.symbols, digits_append n hends.1]
    exact hlast _ (reaches_leaf (by simp; omega) ha)
  · have hdigits : digits (.indeterminate :: (p.elim [] Power.symbols ++ us)) = none := rfl
    show (bodyTries a (.indeterminate :: (p.elim [] Power.symbols ++ us))).Reaches m l
    rw [bodyTries, hdigits]
    exact reaches_letterTries_append none p hends hm (reaches_leaf (by simp; omega) ha) hlast
  · have hn := length_symbols_pos n
    rw [bodyTries, digits_monomial_append]
    exact reaches_letterTries_append (some n) p hends hm
      (reaches_leaf (by simp [Body.symbols]; omega) ha) hlast

lemma reaches_termTries_append (w : WrittenTerm) (hends : Ends w.body us) (hm : m ≤ us.length)
    (ha : a.Reaches m [])
    (hlast : ∀ a : Attempts, a.Reaches m [] → (lastTries w.body a us).Reaches m l) :
    (termTries a (w.symbols ++ us)).Reaches m l := by
  have hw := List.length_pos_iff.2 (symbols_ne_nil w)
  rw [termTries, named_of_isSome (by simp [term_append w hends])]
  have hsign : (signTries a (w.symbols ++ us)).Reaches m [] :=
    reaches_leaf (by simp; omega) ha
  rw [WrittenTerm.symbols, List.append_assoc] at hsign ⊢
  rw [maybe_sign_append]
  exact reaches_bodyTries_append w.body hends hm hsign hlast

lemma exists_of_isSome_sign (h : (sign us).isSome) : ∃ s zs, us = .sign s :: zs := by
  rw [sign.eq_def] at h
  split at h
  next s zs => exact ⟨s, zs, rfl⟩
  next => cases h

/-- Behind a term and before a sign, nothing fails so far on. -/
lemma reaches_lastTries_of_lt (b : Body) (hm : m < us.length) (hsign : (sign us).isSome)
    (ha : a.Reaches m []) : (lastTries b a us).Reaches m [] := by
  obtain ⟨s, zs, rfl⟩ := exists_of_isSome_sign hsign
  rcases b with n | ⟨n, _ | p⟩
  · show (letterTries a (.sign s :: zs)).Reaches m []
    exact reaches_named hm ha
  · show (powerTries a (.sign s :: zs)).Reaches m []
    exact reaches_named hm ha
  · exact ha

/-! ## Terms one behind the other -/

lemma following_of_some {w : WrittenTerm} {zs : List Symbol} (h : signedTerm us = some (w, zs)) :
    followingTries a us = followingTries (signedTermTries a us) zs
      ∧ (following us).2 = (following zs).2 := by
  rw [followingTries.eq_def, following.eq_def]
  constructor
  · split
    next heq =>
      cases h.symm.trans heq
      rfl
    next heq => cases h.symm.trans heq
  · split
    next heq =>
      cases h.symm.trans heq
      rfl
    next heq => cases h.symm.trans heq

lemma following_of_none (h : signedTerm us = none) :
    followingTries a us = signedTermTries a us ∧ (following us).2 = us := by
  rw [followingTries.eq_def, following.eq_def]
  constructor
  · split
    next heq => cases h.symm.trans heq
    next => rfl
  · split
    next heq => cases h.symm.trans heq
    next => rfl

/-- Before a sign, the terms that follow are tried like those of a whole expression. -/
lemma doneTries_following (h : (sign us).isSome) :
    doneTries (followingTries a us) (following us).2 = termsTries a us := by
  have hsigned : signedTerm us = term us := if_pos h
  have htries : signedTermTries a us = termTries a us := by
    rw [signedTermTries, if_pos h, signTries, leaf, named_of_isSome h]
  rw [termsTries]
  cases hterm : term us with
  | none =>
      obtain ⟨htried, hleft⟩ := following_of_none (a := a) (hsigned.trans hterm)
      rw [htried, hleft, htries]
  | some r =>
      obtain ⟨htried, hleft⟩ := following_of_some (a := a) (hsigned.trans hterm)
      rw [htried, hleft, htries]

/-- A complete term before the sign of the next one leaves no trace further on. -/
lemma termsTries_append (w : WrittenTerm) (hm : m < us.length) (hsign : (sign us).isSome)
    (ha : a.Reaches m []) :
    ∃ b : Attempts, b.Reaches m [] ∧ termsTries a (w.symbols ++ us) = termsTries b us := by
  have hends : Ends w.body us := by
    obtain ⟨s, zs, rfl⟩ := exists_of_isSome_sign hsign
    exact (Boundary.sign s zs).ends w.body
  have htried : (termTries a (w.symbols ++ us)).Reaches m [] :=
    reaches_termTries_append w hends (Nat.le_of_lt hm) ha fun b hb =>
      reaches_lastTries_of_lt w.body hm hsign hb
  refine ⟨_, htried, ?_⟩
  rw [← doneTries_following hsign, termsTries, term_append w hends]

lemma isSome_sign_flatMap {ws : List WrittenTerm} (hws : ∀ w ∈ ws, w.sign ≠ none)
    (hsign : (sign us).isSome) : (sign (ws.flatMap WrittenTerm.symbols ++ us)).isSome := by
  cases ws with
  | nil => exact hsign
  | cons w ws =>
      obtain ⟨_ | s, b⟩ := w
      · exact absurd rfl (hws _ List.mem_cons_self)
      · rfl

/-- **Complete terms do not matter** to the furthest failure. -/
lemma termsTries_flatMap {ws : List WrittenTerm} (hjoin : Joinable ws) (hm : m < us.length)
    (hsign : ws ≠ [] → (sign us).isSome) (ha : a.Reaches m []) :
    ∃ b : Attempts, b.Reaches m []
      ∧ termsTries a (ws.flatMap WrittenTerm.symbols ++ us) = termsTries b us := by
  induction ws generalizing a with
  | nil => exact ⟨a, ha, rfl⟩
  | cons w ws ih =>
      have hws : ∀ v ∈ ws, v.sign ≠ none := hjoin
      have hsign' := isSome_sign_flatMap hws (hsign (by simp))
      obtain ⟨b, hb, hfirst⟩ := termsTries_append w (m := m) (by simp; omega) hsign' ha
      obtain ⟨c, hc, hrest⟩ :=
        ih (fun v hv => hws v (List.mem_of_mem_tail hv)) (fun _ => hsign (by simp)) hb
      refine ⟨c, hc, ?_⟩
      rw [List.flatMap_cons, List.append_assoc, hfirst, hrest]

/-! ## The last term -/

/-- Where the terms end too early, only a sign and the end are tried after the last one. -/
lemma termsTries_of_ends (w : WrittenTerm) (hends : Ends w.body us) (hsign : sign us = none) :
    termsTries a (w.symbols ++ us)
      = doneTries (signTries (termTries a (w.symbols ++ us)) us) us := by
  have hnone : signedTerm us = none := by
    rw [signedTerm, hsign]
    rfl
  obtain ⟨hfollowing, hleft⟩ := following_of_none (a := termTries a (w.symbols ++ us)) hnone
  have htries : signedTermTries (termTries a (w.symbols ++ us)) us
      = signTries (termTries a (w.symbols ++ us)) us := by
    rw [signedTermTries, hsign]
    rfl
  rw [termsTries, term_append w hends]
  dsimp only
  rw [hfollowing, hleft, htries]

lemma reaches_termsTries_here (w : WrittenTerm) (hends : Ends w.body us) (hsign : sign us = none)
    (hne : us ≠ []) (ha : a.Reaches us.length [])
    (hlast : ∀ a : Attempts, a.Reaches us.length [] → (lastTries w.body a us).Reaches us.length l) :
    (termsTries a (w.symbols ++ us)).Reaches us.length (l ++ [.sign] ++ [.endOfInput]) := by
  have hdone : done us = none := by
    cases us with
    | nil => exact absurd rfl hne
    | cons y zs => rfl
  rw [termsTries_of_ends w hends hsign]
  exact reaches_leaf_here hdone (reaches_leaf_here hsign
    (reaches_termTries_append w hends (Nat.le_refl _) ha hlast))

/-- Where an exponent is given up, all that is tried after it is further back. -/
lemma reaches_termsTries_before (w : WrittenTerm) (hends : Ends w.body us) (hsign : sign us = none)
    (hm : m < us.length) (ha : a.Reaches m [])
    (hlast : ∀ a : Attempts, a.Reaches m [] → (lastTries w.body a us).Reaches m l) :
    (termsTries a (w.symbols ++ us)).Reaches m l := by
  rw [termsTries_of_ends w hends hsign]
  exact reaches_leaf hm (reaches_leaf hm
    (reaches_termTries_append w hends (Nat.le_of_lt hm) ha hlast))

end Append

/-- Reading stops at the stage: what is left does not go on from there, and it is no end either. -/
def Stuck (st : Stage) : List Symbol → Prop
  | [] => st.finish? = none
  | y :: _ => st.step? y = none

/-- The rules that fail at a stage. -/
def failed : Stage → List RuleName
  | .start => [.polynomial]
  | .signed _ => [.digits, .letter]
  | .coefficient _ _ => [.letter, .sign, .endOfInput]
  | .indeterminate _ _ => [.power, .sign, .endOfInput]
  | .caret _ _ => [.sign, .digits]
  | .exponentSign _ _ _ => [.digits]
  | .exponent _ _ _ _ => [.sign, .endOfInput]

section Stuck

variable {a : Attempts} {rest : List Symbol}

lemma reaches_letterTries_here (hletter : letter rest = none) {l : List RuleName}
    (ha : a.Reaches rest.length l) : (letterTries a rest).Reaches rest.length (l ++ [.letter]) := by
  refine reaches_named_here (k := []) hletter ha ?_ (by simp)
  split
  next => cases hletter
  next => simpa using ha

lemma reaches_powerTries_here (hpower : ∀ zs, rest ≠ .caret :: zs) {l : List RuleName}
    (ha : a.Reaches rest.length l) : (powerTries a rest).Reaches rest.length (l ++ [.power]) := by
  have hnone : power rest = none := by
    rw [power.eq_def]
    split
    next zs => exact absurd rfl (hpower zs)
    next => rfl
  refine reaches_named_here (k := []) hnone ha ?_ (by simp)
  split
  next zs => exact absurd rfl (hpower zs)
  next => simpa using ha

/-- Behind a sign there are digits or a letter missing. -/
lemma reaches_signed (s : Sign) (h : Stuck (.signed s) rest) (ha : a.Reaches rest.length []) :
    (termsTries a (.sign s :: rest)).Reaches rest.length [.digits, .letter] := by
  have hrules : digits rest = none ∧ letter rest = none := by
    rcases rest with _ | ⟨_ | _ | _ | _, zs⟩ <;>
      simp_all [Stuck, Stage.step?, Stage.extend?, digits, letter]
  have hterm : term (.sign s :: rest) = none := by
    simp [term, maybe, sign, body, hrules.1, hrules.2]
  rw [termsTries, hterm]
  dsimp only
  refine reaches_leaf (by simp) (reaches_named (by simp) ?_)
  show (bodyTries (signTries a (.sign s :: rest)) rest).Reaches rest.length [.digits, .letter]
  rw [bodyTries, hrules.1]
  exact reaches_letterTries_here hrules.2
    (l := [.digits]) (reaches_leaf_here (l := []) hrules.1 (reaches_leaf (by simp) ha))

/-- Behind a caret there is a sign or a digit missing, behind its sign only a digit. -/
lemma reaches_caret (s : Option Sign) (n : Option Numeral) (h : Stuck (.caret s n) rest)
    (ha : a.Reaches rest.length []) :
    (termsTries a ((Stage.caret s n).symbols ++ rest)).Reaches rest.length [.sign, .digits] := by
  have hrules : sign rest = none ∧ digits rest = none := by
    rcases rest with _ | ⟨_ | _ | _ | _, zs⟩ <;>
      simp_all [Stuck, Stage.step?, Stage.extend?, sign, digits]
  have hpower : power (.caret :: rest) = none := by
    simp [power, maybe_eq_none hrules.1, hrules.2]
  have hsplit : (Stage.caret s n).symbols ++ rest
      = (WrittenTerm.mk s (.monomial n none)).symbols ++ (.caret :: rest) := by
    simp [Stage.symbols, WrittenTerm.symbols, Body.symbols]
  rw [hsplit]
  refine reaches_termsTries_before _ hpower rfl (by simp) ha fun b hb => ?_
  show (powerTries b (.caret :: rest)).Reaches rest.length [.sign, .digits]
  refine reaches_named (by simp) ?_
  show (digitsTries (signTries b rest) (maybe sign rest).2).Reaches rest.length [.sign, .digits]
  rw [maybe_eq_none hrules.1]
  exact reaches_leaf_here (l := [.sign]) hrules.2 (reaches_leaf_here (l := []) hrules.1 hb)

lemma reaches_exponentSign (s : Option Sign) (n : Option Numeral) (e : Sign)
    (h : Stuck (.exponentSign s n e) rest) (ha : a.Reaches rest.length []) :
    (termsTries a ((Stage.exponentSign s n e).symbols ++ rest)).Reaches rest.length [.digits] := by
  have hdigits : digits rest = none := by
    rcases rest with _ | ⟨_ | _ | _ | _, zs⟩ <;>
      simp_all [Stuck, Stage.step?, Stage.extend?, digits]
  have hpower : power (.caret :: .sign e :: rest) = none := by
    simp [power, maybe, sign, hdigits]
  have hsplit : (Stage.exponentSign s n e).symbols ++ rest
      = (WrittenTerm.mk s (.monomial n none)).symbols ++ (.caret :: .sign e :: rest) := by
    simp [Stage.symbols, WrittenTerm.symbols, Body.symbols]
  have hlt : rest.length < (Symbol.caret :: .sign e :: rest).length := by
    rw [List.length_cons, List.length_cons]
    omega
  rw [hsplit]
  refine reaches_termsTries_before _ hpower rfl hlt ha fun b hb => ?_
  show (powerTries b (.caret :: .sign e :: rest)).Reaches rest.length [.digits]
  refine reaches_named hlt ?_
  show (digitsTries (signTries b (.sign e :: rest)) rest).Reaches rest.length [.digits]
  exact reaches_leaf_here (l := []) hdigits (reaches_leaf (by simp) hb)

/-- Behind a term that could end here, the end is missing, a sign, and what more there could be of
the term. -/
lemma reaches_closed {st : Stage} {w : WrittenTerm} (hclose : st.close? = some w)
    (h : Stuck st rest) (ha : a.Reaches rest.length []) :
    (termsTries a (st.symbols ++ rest)).Reaches rest.length (failed st) := by
  obtain ⟨y, zs, rfl⟩ : ∃ y zs, rest = y :: zs := by
    cases rest with
    | nil => cases st <;> simp_all [Stuck, Stage.finish?, Stage.close?]
    | cons y zs => exact ⟨y, zs, rfl⟩
  have hstep : st.step? y = none := h
  have hsign : sign (y :: zs) = none := by
    cases y <;> cases st <;> simp_all [Stage.step?, Stage.extend?, Stage.close?, sign]
  rw [← Stage.symbols_close? hclose]
  cases st with
  | coefficient s n =>
      cases hclose
      have hends : Ends (.constant n) (y :: zs) := by
        cases y <;> simp_all [Ends, NoDigit, letter, Stage.step?, Stage.extend?]
      exact reaches_termsTries_here (l := [.letter]) _ hends hsign (by simp) ha
        fun b hb => reaches_letterTries_here (l := []) hends.2 hb
  | indeterminate s n =>
      cases hclose
      have hcaret : ∀ us, y :: zs ≠ .caret :: us := by
        intro us heq
        cases heq
        cases hstep
      have hends : Ends (.monomial n none) (y :: zs) := by
        cases y <;> simp_all [Ends, power]
      exact reaches_termsTries_here (l := [.power]) _ hends hsign (by simp) ha
        fun b hb => reaches_powerTries_here (l := []) hcaret hb
  | exponent s n e m =>
      cases hclose
      have hends : Ends (.monomial n (some ⟨e, m⟩)) (y :: zs) := by
        cases y <;> simp_all [Ends, NoDigit, Stage.step?, Stage.extend?]
      exact reaches_termsTries_here (l := []) _ hends hsign (by simp) ha fun b hb => hb
  | _ => cases hclose

/-- **At a stage these rules fail**, wherever the term that is being read has begun. -/
theorem reaches_stuck {st : Stage} (hst : st ≠ .start) (h : Stuck st rest)
    (ha : a.Reaches rest.length []) :
    (termsTries a (st.symbols ++ rest)).Reaches rest.length (failed st) := by
  cases st with
  | start => exact absurd rfl hst
  | signed s => exact reaches_signed s h ha
  | caret s n => exact reaches_caret s n h ha
  | exponentSign s n e => exact reaches_exponentSign s n e h ha
  | coefficient s n => exact reaches_closed rfl h ha
  | indeterminate s n => exact reaches_closed rfl h ha
  | exponent s n e m => exact reaches_closed rfl h ha

end Stuck

/-! ## Whole expressions -/

/-- What has been read up to a stage: complete terms, and the beginning of one more, which has a
sign unless it is the first. -/
lemma exists_flatMap_of_advance? {st st' : Stage} {xs : List Symbol}
    (h : st.advance? xs = some st') :
    ∃ ws, st.symbols ++ xs = ws.flatMap WrittenTerm.symbols ++ st'.symbols
      ∧ Joinable ws ∧ (st.Signed → ∀ w ∈ ws, w.sign ≠ none)
      ∧ (st.Signed ∨ ws ≠ [] → st'.Signed) := by
  induction xs generalizing st with
  | nil =>
      cases h
      exact ⟨[], by simp, nofun, nofun, by simp⟩
  | cons y xs ih =>
      rw [Stage.advance?_cons] at h
      obtain ⟨⟨us, st₁⟩, hstep, hrest⟩ := Option.bind_eq_some_iff.1 h
      obtain ⟨ws, hsymbols, hjoin, hsigned, hstage⟩ := ih hrest
      have hspell := Stage.symbols_step? hstep
      refine ⟨us ++ ws, ?_, ?_⟩
      · rw [List.flatMap_append, List.append_assoc, ← hsymbols, ← List.append_assoc, hspell]
        simp
      rcases Stage.step?_eq_some hstep with ⟨rfl, hext⟩ | ⟨w, s, rfl, hclose, -, rfl⟩
      · refine ⟨hjoin, fun hs => hsigned (Stage.signed_extend? hext hs), fun hs => hstage ?_⟩
        exact hs.imp (Stage.signed_extend? hext) id
      · have hws : ∀ v ∈ ws, v.sign ≠ none := hsigned trivial
        refine ⟨hws, fun hs => ?_, fun _ => hstage (.inl trivial)⟩
        exact List.forall_mem_cons.2 ⟨Stage.sign_close? hclose hs, hws⟩

lemma isSome_sign_of_signed {st : Stage} (h : st.Signed) (ys : List Symbol) :
    (sign (st.symbols ++ ys)).isSome := by
  have hsome : ∀ (s : Option Sign) (zs : List Symbol), s ≠ none →
      (sign (signSymbols s ++ zs)).isSome := by
    intro s zs hs
    cases s with
    | none => exact absurd rfl hs
    | some s => rfl
  cases st with
  | start => exact h.elim
  | signed s => rfl
  | _ => simp only [Stage.symbols, List.append_assoc, hsome _ _ h]

lemma start_of_symbols_eq_nil {st : Stage} (h : st.symbols = []) : st = .start := by
  cases st with
  | start => rfl
  | signed s => cases h
  | coefficient s n =>
      have hn := length_symbols_pos n
      simp [Stage.symbols] at h
      simp [h.2] at hn
  | _ => simp [Stage.symbols] at h

/-- At the very beginning every rule fails, and the name of the whole takes the place of all
others. -/
lemma reaches_attempts_start {rest : List Symbol} (h : Stuck .start rest) :
    (attempts rest).Reaches rest.length [.polynomial] := by
  obtain ⟨hsign, hdigits, hletter, hdone⟩ :
      sign rest = none ∧ digits rest = none ∧ letter rest = none ∧ done rest = none := by
    rcases rest with _ | ⟨_ | _ | _ | _, zs⟩ <;>
      simp_all [Stuck, Stage.finish?, Stage.step?, Stage.extend?, sign, digits, letter, done]
  have hterm : term rest = none := by
    simp [term, maybe_eq_none hsign, body, hdigits, hletter]
  have hne : rest ≠ [] := by
    rintro rfl
    cases hdone
  have hpolynomial : ((polynomial rest).map fun ws => (ws, ([] : List Symbol))) = none := by
    simp [polynomial, hterm, hne]
  have hnone : Reaches ⟨rest.length, []⟩ rest.length [] := reaches_mk _ _
  have hparts : (bodyTries (signTries ⟨rest.length, []⟩ rest) (maybe sign rest).2).Reaches
      rest.length [.sign, .digits, .letter] := by
    rw [maybe_eq_none hsign, bodyTries, hdigits]
    exact reaches_letterTries_here (l := [.sign, .digits]) hletter
      (reaches_leaf_here (l := [.sign]) hdigits (reaches_leaf_here (l := []) hsign hnone))
  have htried : (termTries ⟨rest.length, []⟩ rest).Reaches rest.length [.term] :=
    reaches_named_here (l := []) (k := [.sign, .digits, .letter]) hterm hnone hparts (by simp)
  have hterms : (termsTries ⟨rest.length, []⟩ rest).Reaches rest.length
      [.term, .endOfInput] := by
    rw [termsTries, hterm]
    exact reaches_leaf_here (l := [.term]) hdone htried
  exact reaches_named_here (l := []) (k := [.term, .endOfInput]) hpolynomial hnone hterms (by simp)

/-- **The furthest failure is where the reader is stuck**, and the rules that have failed there
are those of the stage. -/
theorem reaches_attempts {xs rest : List Symbol} {st : Stage}
    (hst : Stage.start.advance? xs = some st) (h : Stuck st rest) :
    (attempts (xs ++ rest)).Reaches rest.length (failed st) := by
  obtain ⟨ws, hxs, hjoin, -, hsigned⟩ := exists_flatMap_of_advance? hst
  replace hxs : xs = ws.flatMap WrittenTerm.symbols ++ st.symbols := hxs
  by_cases hstart : st = .start
  · subst hstart
    cases ws with
    | nil =>
        rw [hxs]
        exact reaches_attempts_start h
    | cons w ws => exact absurd (hsigned (.inr (by simp))) id
  · have hpos := List.length_pos_iff.2 (mt start_of_symbols_eq_nil hstart)
    have hlt : rest.length < (st.symbols ++ rest).length := by
      rw [List.length_append]
      omega
    have hlt' : rest.length < (xs ++ rest).length := by
      rw [hxs, List.length_append, List.length_append]
      omega
    have hnone : Reaches ⟨(xs ++ rest).length, []⟩ rest.length [] := (reaches_mk _ _).mono hlt'
    obtain ⟨b, hb, htries⟩ := termsTries_flatMap hjoin hlt
      (fun hne => isSome_sign_of_signed (hsigned (.inr hne)) rest) hnone
    refine reaches_named hlt' ?_
    rw [← List.append_assoc, ← hxs] at htries
    rw [htries]
    exact reaches_stuck hstart h hb

/-! ## Reports -/

lemma Attempts.Reaches.eq {a : Attempts} {m : Nat} {l : List RuleName} (h : a.Reaches m l)
    (hl : l ≠ []) : a.left = m ∧ a.names = l := by
  have hnames := h.namesAt
  rw [Attempts.namesAt] at hnames
  split at hnames
  next hm => exact ⟨hm, hnames⟩
  next => exact absurd hnames.symm hl

/-- The names of the rules that fail are the expectations of the stage. -/
lemma words_failed (st : Stage) :
    (RuleName.all.filter (· ∈ failed st)).map RuleName.words
      = st.expected.map Expectation.words := by
  cases st <;> rfl

lemma report_append {xs rest : List Located} {st : Stage}
    (hst : Stage.start.advance? (xs.map Located.symbol) = some st)
    (h : Stuck st (rest.map Located.symbol)) :
    report (xs ++ rest) = (match rest.head? with
      | some y =>
          "unexpected '" ++ y.symbol.char.toString ++ "' at position " ++ Decimal.text y.position
      | none => "unexpected end of input")
      ++ ", expected " ++ " or ".intercalate (st.expected.map Expectation.words) := by
  have hne : failed st ≠ [] := by cases st <;> simp [failed]
  obtain ⟨hleft, hnames⟩ := (reaches_attempts hst h).eq hne
  have hfound : (xs ++ rest)[(xs ++ rest).length - rest.length]? = rest.head? := by
    rw [List.length_append, Nat.add_sub_cancel, List.getElem?_append_right (Nat.le_refl _),
      Nat.sub_self, List.head?_eq_getElem?]
  rw [List.length_map] at hleft
  rw [report, List.map_append, hleft, hnames, if_neg hne, hfound, words_failed]

/-- **The reader reports the furthest failure of the rules.** -/
theorem message_eq_report {ys : List Located} {r : Refusal} (h : readWritten ys = .error r) :
    r.message = report ys := by
  rcases readFrom_eq_error h with ⟨xs, y, zs, st, rfl, hst, hstep, rfl⟩ | ⟨st, hst, hfinish, rfl⟩
  · have hreport : report (xs ++ y :: zs) = _ := report_append hst hstep
    rw [hreport, Refusal.message_unexpectedSymbol]
    rfl
  · have hreport : report (ys ++ []) = _ := report_append hst hfinish
    rw [← List.append_nil ys, hreport]
    rfl

end LaurentCalc.OrderedChoice
