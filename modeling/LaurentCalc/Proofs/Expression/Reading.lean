import LaurentCalc.Expression.Grammar
import Mathlib.Tactic.Lemma

/-!
# Every spelling is read

`spells_of_readWritten` says that the reader invents nothing: what it returns spells the text.
This file has the other direction, that it misses nothing, and what follows from the two together.

The reader never goes back, so it is enough to know where it stands after a written term.
`WrittenTerm.stage` is that place: it holds exactly the parts of the term, and no symbol but the
sign of the next term, or the end, completes it.  So reading a list of written terms is an
induction over the list, each term by `readSymbols_append` and `step?_stage`.

* `readSymbols` — the reader without positions, on which success depends alone.
* **`readWritten_eq_ok_iff`** — the reader returns the written terms that spell the text.
* **`Spells.unique`** — no text is spelled in two ways.
* `Stage.advance?` — how far the reader gets with symbols that need not be complete.
* **`readFrom_eq_error`** — where the reader stops, it has got just so far.
-/

namespace LaurentCalc

/-! ## Reading without positions -/

/-- The written terms of the symbols, when a term has been read up to the stage `st`. -/
def readSymbols (st : Stage) : List Symbol → Option (List WrittenTerm)
  | [] => st.finish?
  | y :: ys => (st.step? y).bind fun r => (readSymbols r.2 ys).map (r.1 ++ ·)

lemma toOption_readFrom (st : Stage) (ys : List Located) :
    (readFrom st ys).toOption = readSymbols st (ys.map Located.symbol) := by
  induction ys generalizing st with
  | nil =>
      rw [readFrom, List.map_nil, readSymbols]
      cases st.finish? <;> rfl
  | cons y ys ih =>
      rw [readFrom, List.map_cons, readSymbols]
      cases st.step? y.symbol with
      | none => rfl
      | some r =>
          obtain ⟨ws, st'⟩ := r
          rw [Option.bind_some, ← ih]
          show ((readFrom st' ys).map (ws ++ ·)).toOption = (readFrom st' ys).toOption.map (ws ++ ·)
          cases readFrom st' ys <;> rfl

lemma readWritten_eq_ok_iff_readSymbols (ys : List Located) (ws : List WrittenTerm) :
    readWritten ys = .ok ws ↔ readSymbols .start (ys.map Located.symbol) = some ws := by
  rw [← toOption_readFrom, readWritten]
  cases readFrom .start ys <;> simp [Except.toOption]

/-! ## Following a term -/

namespace Stage

/-- The stage after more symbols of the same term. -/
def follow? (st : Stage) (ys : List Symbol) : Option Stage := ys.foldlM Stage.extend? st

lemma follow?_append (st : Stage) (xs ys : List Symbol) :
    st.follow? (xs ++ ys) = (st.follow? xs).bind fun st' => st'.follow? ys := by
  simp only [follow?, List.foldlM_append]
  rfl

lemma follow?_singleton (st : Stage) (y : Symbol) : st.follow? [y] = st.extend? y := by
  simp [follow?]

def opening : Option Sign → Stage
  | none => start
  | some s => signed s

lemma follow?_signSymbols (s : Option Sign) : start.follow? (signSymbols s) = some (opening s) := by
  cases s <;> rfl

end Stage

/-- A numeral is a digit, or a numeral with one more digit behind it. -/
lemma Numeral.push_induction {motive : Numeral → Prop} (single : ∀ d, motive (.single d))
    (push : ∀ n d, motive n → motive (n.push d)) : ∀ n, motive n
  | ⟨[], h⟩ => absurd rfl h
  | ⟨[d], _⟩ => single d
  | ⟨d :: e :: ds, _⟩ => push ⟨e :: ds, by simp⟩ d (push_induction single push ⟨e :: ds, by simp⟩)
termination_by n => n.reversed.length

lemma Numeral.symbols_push (n : Numeral) (d : Digit) :
    (n.push d).symbols = n.symbols ++ [.digit d] := by
  simp [symbols]

/-- Wherever a first digit and every further one may stand, a whole numeral is read. -/
lemma Stage.follow?_numeral {st : Stage} {after : Numeral → Stage}
    (first : ∀ d, st.extend? (.digit d) = some (after (.single d)))
    (further : ∀ n d, (after n).extend? (.digit d) = some (after (n.push d))) (n : Numeral) :
    st.follow? n.symbols = some (after n) := by
  induction n using Numeral.push_induction with
  | single d =>
      show st.follow? [.digit d] = _
      rw [follow?_singleton, first]
  | push n d ih =>
      rw [Numeral.symbols_push, follow?_append, ih, Option.bind_some, follow?_singleton, further]

/-- The stage at which a term has been read to its last symbol. -/
def WrittenTerm.stage : WrittenTerm → Stage
  | ⟨s, .constant n⟩ => .coefficient s n
  | ⟨s, .monomial n none⟩ => .indeterminate s n
  | ⟨s, .monomial n (some ⟨e, m⟩)⟩ => .exponent s n e m

lemma Stage.follow?_power (s : Option Sign) (n : Option Numeral) (p : Option Power) :
    (indeterminate s n).follow? (p.elim [] Power.symbols)
      = some (WrittenTerm.mk s (.monomial n p)).stage := by
  rcases p with _ | ⟨_ | e, m⟩
  · rfl
  · show (caret s n).follow? m.symbols = _
    exact follow?_numeral (fun _ => rfl) (fun _ _ => rfl) m
  · show (exponentSign s n e).follow? m.symbols = _
    exact follow?_numeral (fun _ => rfl) (fun _ _ => rfl) m

lemma Stage.follow?_coefficient (s : Option Sign) (n : Numeral) :
    (opening s).follow? n.symbols = some (coefficient s n) := by
  refine follow?_numeral (fun d => ?_) (fun _ _ => rfl) n
  cases s <;> rfl

lemma Stage.follow?_body (s : Option Sign) (b : Body) :
    (opening s).follow? b.symbols = some (WrittenTerm.mk s b).stage := by
  cases b with
  | constant n => exact follow?_coefficient s n
  | monomial n p =>
      -- up to the `x` included, with or without a coefficient
      have hx : (opening s).follow? (n.elim [] Numeral.symbols ++ [.indeterminate])
          = some (indeterminate s n) := by
        cases n with
        | none => cases s <;> rfl
        | some n =>
            rw [Option.elim_some, follow?_append, follow?_coefficient]
            rfl
      have hsplit : (Body.monomial n p).symbols
          = (n.elim [] Numeral.symbols ++ [.indeterminate]) ++ p.elim [] Power.symbols := by
        simp [Body.symbols]
      rw [hsplit, follow?_append, hx, Option.bind_some, follow?_power]

lemma Stage.follow?_symbols (w : WrittenTerm) : start.follow? w.symbols = some w.stage := by
  rw [WrittenTerm.symbols, follow?_append, follow?_signSymbols, Option.bind_some, follow?_body]

/-! ## Reading terms one behind the other -/

lemma readSymbols_append {st st' : Stage} {xs : List Symbol} (h : st.follow? xs = some st')
    (ys : List Symbol) : readSymbols st (xs ++ ys) = readSymbols st' ys := by
  induction xs generalizing st with
  | nil =>
      cases h
      rfl
  | cons x xs ih =>
      rw [Stage.follow?, List.foldlM_cons] at h
      obtain ⟨st₁, hx, hxs⟩ := Option.bind_eq_some_iff.1 h
      have hstep : st.step? x = some ([], st₁) := by simp only [Stage.step?, hx]
      rw [List.cons_append, readSymbols, hstep, Option.bind_some, ih hxs]
      simp

/-- A sign behind a complete term is the sign of the next one. -/
lemma Stage.step?_stage (w : WrittenTerm) (s : Sign) :
    w.stage.step? (.sign s) = some ([w], signed s) := by
  rcases w with ⟨_, n | ⟨n, _ | ⟨e, m⟩⟩⟩ <;> rfl

lemma Stage.finish?_stage (w : WrittenTerm) : w.stage.finish? = some [w] := by
  rcases w with ⟨_, n | ⟨n, _ | ⟨e, m⟩⟩⟩ <;> rfl

lemma readSymbols_stage (w : WrittenTerm) {ws : List WrittenTerm} (h : ∀ v ∈ ws, v.sign ≠ none) :
    readSymbols w.stage (ws.flatMap WrittenTerm.symbols) = some (w :: ws) := by
  induction ws generalizing w with
  | nil => exact Stage.finish?_stage w
  | cons v vs ih =>
      obtain ⟨hv, hvs⟩ := List.forall_mem_cons.1 h
      obtain ⟨s, b⟩ := v
      cases s with
      | none => exact absurd rfl hv
      | some s =>
          have hbody := readSymbols_append (Stage.follow?_body (some s) b)
            (vs.flatMap WrittenTerm.symbols)
          rw [List.flatMap_cons, WrittenTerm.symbols, List.append_assoc]
          show readSymbols w.stage (.sign s :: (b.symbols ++ vs.flatMap WrittenTerm.symbols)) = _
          rw [readSymbols, Stage.step?_stage, Option.bind_some]
          show (readSymbols (Stage.opening (some s)) _).map _ = _
          rw [hbody, ih _ hvs]
          rfl

/-- **What is spelled is read.** -/
theorem readSymbols_of_spells {ys : List Symbol} {ws : List WrittenTerm} (h : Spells ys ws) :
    readSymbols .start ys = some ws := by
  obtain ⟨hjoin, rfl⟩ := h
  cases ws with
  | nil => rfl
  | cons w ws =>
      rw [List.flatMap_cons, readSymbols_append (Stage.follow?_symbols w)]
      exact readSymbols_stage w hjoin

/-- **The reader is exact**: it returns the written terms that spell the text, if there are any. -/
theorem readWritten_eq_ok_iff (ys : List Located) (ws : List WrittenTerm) :
    readWritten ys = .ok ws ↔ Spells (ys.map Located.symbol) ws := by
  constructor
  · exact spells_of_readWritten
  · intro h
    rw [readWritten_eq_ok_iff_readSymbols]
    exact readSymbols_of_spells h

/-- **The grammar is unambiguous.**  One function reads every spelling, so there is only one. -/
theorem Spells.unique {ys : List Symbol} {ws vs : List WrittenTerm} (hw : Spells ys ws)
    (hv : Spells ys vs) : ws = vs := by
  have hread := readSymbols_of_spells hw
  rw [readSymbols_of_spells hv] at hread
  exact (Option.some.inj hread).symm

/-! ## Where the reader stops -/

namespace Stage

/-- The stage after more symbols, whatever terms they complete. -/
def advance? (st : Stage) (ys : List Symbol) : Option Stage :=
  ys.foldlM (fun st y => (st.step? y).map Prod.snd) st

lemma advance?_cons (st : Stage) (y : Symbol) (ys : List Symbol) :
    st.advance? (y :: ys) = (st.step? y).bind fun r => r.2.advance? ys := by
  rw [advance?, List.foldlM_cons]
  cases st.step? y <;> rfl

lemma advance?_append_singleton (st : Stage) (xs : List Symbol) (y : Symbol) :
    st.advance? (xs ++ [y]) = (st.advance? xs).bind fun st' => (st'.step? y).map Prod.snd := by
  rw [advance?, List.foldlM_append]
  show (st.advance? xs).bind _ = _
  simp

end Stage

/-- The reader refuses a symbol that its stage does not allow, or the end, and nothing before. -/
lemma readFrom_eq_error {st : Stage} {ys : List Located} {r : Refusal}
    (h : readFrom st ys = .error r) :
    (∃ xs y zs st', ys = xs ++ y :: zs ∧ st.advance? (xs.map Located.symbol) = some st'
        ∧ st'.step? y.symbol = none
        ∧ r = .unexpectedSymbol y.symbol y.position st'.expected)
      ∨ ∃ st', st.advance? (ys.map Located.symbol) = some st' ∧ st'.finish? = none
        ∧ r = .unexpectedEnd st'.expected := by
  induction ys generalizing st with
  | nil =>
      rw [readFrom] at h
      split at h
      next => cases h
      next hfinish =>
        cases h
        exact .inr ⟨st, rfl, hfinish, rfl⟩
  | cons y ys ih =>
      rw [readFrom] at h
      split at h
      next us st' hstep =>
        have hrest : readFrom st' ys = .error r := by
          cases hread : readFrom st' ys with
          | ok ws => simp [hread, Except.map] at h
          | error r' => simpa [hread, Except.map] using h
        have hadvance : ∀ xs, st.advance? (y.symbol :: xs) = st'.advance? xs := by
          intro xs
          rw [Stage.advance?_cons, hstep, Option.bind_some]
        refine (ih hrest).imp ?_ ?_
        · rintro ⟨xs, y', zs, st'', rfl, hxs, hnone, hr⟩
          exact ⟨y :: xs, y', zs, st'', rfl, (hadvance _).trans hxs, hnone, hr⟩
        · rintro ⟨st'', hys, hnone, hr⟩
          exact ⟨st'', (hadvance _).trans hys, hnone, hr⟩
      next hstep =>
        cases h
        exact .inl ⟨[], y, ys, st, rfl, rfl, hstep, rfl⟩

end LaurentCalc
