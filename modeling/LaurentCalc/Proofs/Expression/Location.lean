import LaurentCalc.Proofs.Expression.Denotation

/-!
# Where the symbols of a text stand

Looking for symbols either finds all of them or an illegal character.  Here is what is known in
the two cases: a located symbol stands at its position in the text, blanks counted, and the
illegal character is the first one.

* `exists_locate_iff` — the symbols are found if every character that counts is in the alphabet.
* **`exists_of_locateFrom`** — the position of a symbol, and what stands before it.
* **`locateFrom_of_illegal`** — the first illegal character is reported, with its position.
-/

namespace LaurentCalc

lemma isSome_ofChar?_iff (c : Char) : (Symbol.ofChar? c).isSome ↔ c ∈ "x+-^0123456789".toList := by
  constructor
  · intro h
    obtain ⟨y, hy⟩ := Option.isSome_iff_exists.1 h
    rw [← Symbol.ofChar?_eq_some_iff.1 hy]
    exact y.char_mem_alphabet
  · revert c
    simp
    decide

lemma isSome_mapM_iff (cs : List Char) :
    (cs.mapM Symbol.ofChar?).isSome ↔ ∀ c ∈ cs, (Symbol.ofChar? c).isSome := by
  induction cs with
  | nil => simp
  | cons c cs ih =>
      rw [List.forall_mem_cons, ← ih, List.mapM_cons]
      cases Symbol.ofChar? c with
      | none => simp
      | some y => cases cs.mapM Symbol.ofChar? <;> simp

/-- A text can be located exactly if it has no illegal character. -/
lemma exists_locate_iff (text : String) :
    (∃ ys, locate text = .ok ys) ↔ ∀ c ∈ nonBlank text, c ∈ "x+-^0123456789".toList := by
  simp only [← isSome_ofChar?_iff, ← isSome_mapM_iff]
  rw [nonBlank, ← map_symbol_locate]
  cases locate text <;> simp [Except.toOption]

/-- The characters that count are those of the symbols, in their order. -/
lemma nonBlank_of_locate {text : String} {ys : List Located} (h : locate text = .ok ys) :
    nonBlank text = (ys.map Located.symbol).map Symbol.char := by
  have hsymbols := map_symbol_locate text
  rw [h] at hsymbols
  exact ((mapM_ofChar?_eq_some_iff _ _).1 hsymbols.symm).symm

/-- **A located symbol stands where its position says.**  The characters before it that count are
those of the symbols before it. -/
lemma exists_of_locateFrom {p : Nat} {cs : List Char} {xs zs : List Located} {y : Located}
    (h : locateFrom p cs = .ok (xs ++ y :: zs)) :
    ∃ before after, cs = before ++ y.symbol.char :: after ∧ y.position = p + before.length
      ∧ (before.filter fun c => !isBlank c) = (xs.map Located.symbol).map Symbol.char := by
  induction cs generalizing p xs with
  | nil => simp [locateFrom] at h
  | cons c cs ih =>
      rw [locateFrom] at h
      split at h
      next hblank =>
        obtain ⟨before, after, hcs, hposition, hbefore⟩ := ih h
        refine ⟨c :: before, after, by rw [hcs]; rfl, ?_, ?_⟩
        · rw [hposition, List.length_cons]
          omega
        · simpa [hblank] using hbefore
      next hblank =>
        split at h
        next => cases h
        next x hx =>
          cases hrest : locateFrom (p + 1) cs with
          | error r => simp [hrest, Except.map] at h
          | ok us =>
              obtain rfl := Symbol.ofChar?_eq_some_iff.1 hx
              have hus : ⟨x, p⟩ :: us = xs ++ y :: zs := by simpa [hrest, Except.map] using h
              cases xs with
              | nil =>
                  cases hus
                  exact ⟨[], cs, rfl, rfl, rfl⟩
              | cons x' xs =>
                  obtain ⟨rfl, rfl⟩ := List.cons.inj hus
                  obtain ⟨before, after, hcs, hposition, hbefore⟩ := ih hrest
                  refine ⟨x.char :: before, after, by rw [hcs]; rfl, ?_, ?_⟩
                  · rw [hposition, List.length_cons]
                    omega
                  · simpa [hblank] using hbefore

/-- **The first illegal character is reported**, whatever comes behind it. -/
lemma locateFrom_of_illegal {p : Nat} {before after : List Char} {c : Char}
    (hbefore : ∀ b ∈ before, isBlank b ∨ (Symbol.ofChar? b).isSome)
    (hc : ¬ (isBlank c ∨ (Symbol.ofChar? c).isSome)) :
    locateFrom p (before ++ c :: after) = .error (.illegalCharacter c (p + before.length)) := by
  induction before generalizing p with
  | nil =>
      have hblank : ¬ isBlank c = true := fun h => hc (.inl h)
      have hsymbol : Symbol.ofChar? c = none := by simpa using fun h => hc (.inr h)
      rw [List.nil_append, locateFrom, if_neg hblank, hsymbol]
      rfl
  | cons b before ih =>
      obtain ⟨hb, hbefore⟩ := List.forall_mem_cons.1 hbefore
      have hrest := ih (p := p + 1) hbefore
      rw [Nat.add_right_comm] at hrest
      rw [List.cons_append, locateFrom, hrest]
      by_cases hblank : isBlank b = true
      · rw [if_pos hblank]
        rfl
      · obtain ⟨y, hy⟩ := Option.isSome_iff_exists.1 (hb.resolve_left hblank)
        rw [if_neg hblank, hy]
        rfl

end LaurentCalc
