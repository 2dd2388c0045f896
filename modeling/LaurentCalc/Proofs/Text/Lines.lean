import LaurentCalc.Text
import Mathlib.Tactic.Lemma

/-!
# The cutting into lines

`lines` takes an input apart from its front, byte by byte.  What it makes is described without
going through it: pieces that are not empty, with a line feed at the end of each and nowhere else,
only that the last one may lack it.  There is one way to cut an input like that.

* `Cut` — the description.
* **`lines_eq_iff`** — `lines` is the one cutting of an input.
-/

namespace LaurentCalc

/-- The pieces make up the input, and the cuts are where the line feeds are. -/
structure Cut (input : List UInt8) (ls : List (List UInt8)) : Prop where
  flatten : ls.flatten = input
  nonempty : ∀ l ∈ ls, l ≠ []
  /-- A line feed ends its line. -/
  inside : ∀ l ∈ ls, lineFeed ∉ l.dropLast
  /-- Only the last line may end without one. -/
  ended : ∀ l ∈ ls.dropLast, l.getLast? = some lineFeed

namespace Cut

variable {bs : List UInt8} {b : UInt8} {l : List UInt8} {ls : List (List UInt8)}

/-- A line feed in front is a line of its own. -/
lemma cons_lineFeed_iff : Cut (lineFeed :: bs) ([lineFeed] :: ls) ↔ Cut bs ls := by
  constructor
  · intro h
    refine ⟨by simpa using h.flatten, fun l hl => h.nonempty l (by simp [hl]),
      fun l hl => h.inside l (by simp [hl]), fun l hl => h.ended l ?_⟩
    cases ls with
    | nil => cases hl
    | cons l' ls => simp_all
  · intro h
    refine ⟨by simp [h.flatten], ?_, ?_, ?_⟩
    · simpa using h.nonempty
    · simpa using h.inside
    · cases ls with
      | nil => simp
      | cons l' ls => simpa using h.ended

/-- Any other byte in front belongs to the first line. -/
lemma cons_cons_iff (hb : b ≠ lineFeed) (hl : l ≠ []) :
    Cut (b :: bs) ((b :: l) :: ls) ↔ Cut bs (l :: ls) := by
  have hfirst : (b :: l).dropLast = b :: l.dropLast := List.dropLast_cons_of_ne_nil hl
  have hlast : (b :: l).getLast? = l.getLast? := by
    rw [List.getLast?_cons_of_ne_nil hl]
  constructor
  · intro h
    refine ⟨by simpa using h.flatten, ?_, ?_, ?_⟩
    · simpa [hl] using h.nonempty
    · simpa [hfirst, Ne.symm hb] using h.inside
    · cases ls with
      | nil => simp
      | cons l' ls => simpa [hlast] using h.ended
  · intro h
    refine ⟨by simp [← h.flatten], ?_, ?_, ?_⟩
    · simpa [hl] using h.nonempty
    · simpa [hfirst, Ne.symm hb] using h.inside
    · cases ls with
      | nil => simp
      | cons l' ls => simpa [hlast] using h.ended

lemma singleton (b : UInt8) : Cut [b] [[b]] := ⟨by simp, by simp, by simp, by simp⟩

/-- What the first byte says about the first line. -/
lemma exists_first (h : Cut (b :: bs) ls) :
    (b = lineFeed ∧ ∃ rest, ls = [lineFeed] :: rest ∧ Cut bs rest)
      ∨ (b ≠ lineFeed ∧ bs = [] ∧ ls = [[b]])
      ∨ (b ≠ lineFeed ∧ ∃ l rest, ls = (b :: l) :: rest ∧ Cut bs (l :: rest)) := by
  obtain _ | ⟨_ | ⟨c, l⟩, rest⟩ := ls
  · cases h.flatten
  · exact absurd rfl (h.nonempty [] List.mem_cons_self)
  · obtain ⟨rfl, hbs⟩ := List.cons.inj h.flatten
    by_cases hc : c = lineFeed
    · subst hc
      cases l with
      | nil => exact .inl ⟨rfl, rest, rfl, cons_lineFeed_iff.1 h⟩
      | cons d l => exact absurd (h.inside _ List.mem_cons_self) (by simp)
    · cases l with
      | cons d l => exact .inr (.inr ⟨hc, d :: l, rest, rfl, (cons_cons_iff hc (by simp)).1 h⟩)
      | nil =>
          cases rest with
          | nil => exact .inr (.inl ⟨hc, hbs.symm, rfl⟩)
          | cons l rest =>
              have hended := h.ended [c] (by simp)
              exact absurd (by simpa using hended) hc

end Cut

lemma cut_lines (bs : List UInt8) : Cut bs (lines bs) := by
  induction bs with
  | nil => exact ⟨rfl, nofun, nofun, nofun⟩
  | cons b bs ih =>
      rw [lines]
      split
      next hb => exact hb ▸ Cut.cons_lineFeed_iff.2 ih
      next hb =>
        cases hlines : lines bs with
        | nil =>
            rw [hlines] at ih
            rw [← ih.flatten]
            exact Cut.singleton b
        | cons l ls =>
            rw [hlines] at ih
            exact (Cut.cons_cons_iff hb (ih.nonempty l List.mem_cons_self)).2 ih

/-- **There is one way to cut.** -/
theorem lines_eq_iff (bs : List UInt8) (ls : List (List UInt8)) : lines bs = ls ↔ Cut bs ls := by
  refine ⟨fun h => h ▸ cut_lines bs, fun h => ?_⟩
  induction bs generalizing ls with
  | nil =>
      cases ls with
      | nil => rfl
      | cons l ls =>
          have hempty := h.flatten
          simp [h.nonempty l List.mem_cons_self] at hempty
  | cons b bs ih =>
      rcases h.exists_first with
        ⟨rfl, rest, rfl, hrest⟩ | ⟨hb, rfl, rfl⟩ | ⟨hb, l, rest, rfl, hrest⟩
      · rw [lines, if_pos rfl, ih rest hrest]
      · rw [lines, if_neg hb]
        rfl
      · rw [lines, if_neg hb, ih _ hrest]

/-- Behind lines that are complete, the lines start anew. -/
lemma lines_append {bs : List UInt8} (h : ∀ l ∈ lines bs, l.getLast? = some lineFeed)
    (cs : List UInt8) : lines (bs ++ cs) = lines bs ++ lines cs := by
  have hbs := cut_lines bs
  have hcs := cut_lines cs
  refine (lines_eq_iff _ _).2 ⟨by rw [List.flatten_append, hbs.flatten, hcs.flatten], ?_, ?_, ?_⟩
  · exact List.forall_mem_append.2 ⟨hbs.nonempty, hcs.nonempty⟩
  · exact List.forall_mem_append.2 ⟨hbs.inside, hcs.inside⟩
  · rw [List.dropLast_append]
    split
    · exact hbs.ended
    · exact List.forall_mem_append.2 ⟨h, hcs.ended⟩

/-- The first lines of an input are the lines of a shorter one. -/
lemma lines_take (bs : List UInt8) (k : Nat) :
    lines ((lines bs).take k).flatten = (lines bs).take k := by
  have hcut := cut_lines bs
  refine (lines_eq_iff _ _).2 ⟨rfl, fun l hl => hcut.nonempty l (List.mem_of_mem_take hl),
    fun l hl => hcut.inside l (List.mem_of_mem_take hl), fun l hl => hcut.ended l ?_⟩
  rw [List.dropLast_eq_take, List.take_take] at hl
  rw [List.dropLast_eq_take]
  refine List.take_subset_take_left _ ?_ hl
  rw [List.length_take]
  omega

end LaurentCalc
