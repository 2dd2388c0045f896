import LaurentCalc.Expression.Stage

/-!
# The grammar of expressions

What an expression is can be said without a reader: it is any number of written terms, one behind
the other, of which only the first may do without a sign.  No symbol stands between two terms, so
the sign is all that tells where the next one begins.

* `Joinable` — the lists of written terms that may stand behind one another.
* `Spells` — the symbols of such a list.
* **`spells_of_readWritten`** — whatever the reader accepts is spelled by the terms it has read.
-/

namespace LaurentCalc

/-- Every written term but the first has a sign. -/
def Joinable (ws : List WrittenTerm) : Prop := ∀ w ∈ ws.tail, w.sign ≠ none

/-- The symbols are those of the written terms, which may stand behind one another. -/
structure Spells (ys : List Symbol) (ws : List WrittenTerm) : Prop where
  joinable : Joinable ws
  symbols : ws.flatMap WrittenTerm.symbols = ys

def Stage.Signed : Stage → Prop
  | start => False
  | signed _ => True
  | coefficient s _ => s ≠ none
  | indeterminate s _ => s ≠ none
  | caret s _ => s ≠ none
  | exponentSign s _ _ => s ≠ none
  | exponent s _ _ _ => s ≠ none

theorem Stage.signed_extend? {st st' : Stage} {y : Symbol} (h : st.extend? y = some st')
    (hs : st.Signed) : st'.Signed := by
  cases st <;> cases y <;> cases h <;> first | exact hs | exact hs.elim | exact nofun

theorem Stage.sign_close? {st : Stage} {w : WrittenTerm} (h : st.close? = some w)
    (hs : st.Signed) : w.sign ≠ none := by
  cases st <;> cases h <;> exact hs

/-- The end completes the term that is being read, or nothing if there is none. -/
theorem Stage.finish?_eq_some {st : Stage} {ws : List WrittenTerm} (h : st.finish? = some ws) :
    (st = start ∧ ws = []) ∨ ∃ w, st.close? = some w ∧ ws = [w] := by
  cases st <;> cases h
  · exact .inl ⟨rfl, rfl⟩
  · exact .inr ⟨_, rfl, rfl⟩
  · exact .inr ⟨_, rfl, rfl⟩
  · exact .inr ⟨_, rfl, rfl⟩

/-- Reading on from a stage: the terms spell what was read before and what is read now, and every
term has a sign, except that the one being read keeps what it has. -/
theorem spells_of_readFrom {st : Stage} {ys : List Located} {ws : List WrittenTerm}
    (h : readFrom st ys = .ok ws) :
    ws.flatMap WrittenTerm.symbols = st.symbols ++ ys.map Located.symbol
      ∧ Joinable ws ∧ (st.Signed → ∀ w ∈ ws, w.sign ≠ none) := by
  induction ys generalizing st ws with
  | nil =>
    rw [readFrom] at h
    split at h
    next us hfin =>
      cases h
      rcases Stage.finish?_eq_some hfin with ⟨rfl, rfl⟩ | ⟨w, hw, rfl⟩
      · exact ⟨rfl, nofun, nofun⟩
      · refine ⟨?_, nofun, fun hs u hu => ?_⟩
        · simpa using Stage.symbols_close? hw
        · exact List.mem_singleton.1 hu ▸ Stage.sign_close? hw hs
    next => cases h
  | cons y ys ih =>
    rw [readFrom] at h
    split at h
    next us st' hstep =>
      cases hrest : readFrom st' ys with
      | error e => rw [hrest] at h; cases h
      | ok vs =>
        rw [hrest] at h
        cases h
        obtain ⟨hsym, hjoin, hsigned⟩ := ih hrest
        have hspell := Stage.symbols_step? hstep
        refine ⟨?_, ?_⟩
        · rw [List.flatMap_append, hsym, ← List.append_assoc, hspell]
          simp
        · rcases Stage.step?_eq_some hstep with ⟨rfl, hext⟩ | ⟨w, s, rfl, hclose, -, rfl⟩
          · exact ⟨hjoin, fun hs => hsigned (Stage.signed_extend? hext hs)⟩
          · have hvs : ∀ v ∈ vs, v.sign ≠ none := hsigned trivial
            refine ⟨hvs, fun hs u hu => ?_⟩
            rcases List.mem_cons.1 hu with rfl | hu
            · exact Stage.sign_close? hclose hs
            · exact hvs u hu
    next => cases h

/-- **What is read is spelled.**  The written terms of an expression have, in their order, exactly
the symbols of the text. -/
theorem spells_of_readWritten {ys : List Located} {ws : List WrittenTerm}
    (h : readWritten ys = .ok ws) : Spells (ys.map Located.symbol) ws :=
  have hs := spells_of_readFrom h
  ⟨hs.2.1, hs.1⟩

end LaurentCalc
