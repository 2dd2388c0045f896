import LaurentCalc.Session
import Mathlib.Data.List.Forall2
import Mathlib.Tactic.Lemma

/-!
# Sessions made of expressions

A list of expressions makes a session, one entry after the other, as long as each of them is
accepted.  What is shown of such a session is shown entry by entry, each with its position.

* `Accepted` — the polynomials of a list of expressions.
* **`Session.foldlM_create`** — the session they make.
* `Session.shown` — what is shown of entries, from a position on.
* **`Session.listing_append_lineEnd`** — the listing, line by line.
-/

namespace LaurentCalc

/-- The expressions are accepted, and these are their polynomials. -/
def Accepted (es : List String) (ps : List Polynomial) : Prop :=
  List.Forall₂ (fun e p => Polynomial.ofText e = .ok p) es ps

lemma exists_accepted {es : List String} (h : ∀ e ∈ es, ∃ p, Polynomial.ofText e = .ok p) :
    ∃ ps, Accepted es ps := by
  induction es with
  | nil => exact ⟨[], List.Forall₂.nil⟩
  | cons e es ih =>
      obtain ⟨⟨p, hp⟩, hes⟩ := List.forall_mem_cons.1 h
      obtain ⟨ps, hps⟩ := ih hes
      exact ⟨p :: ps, List.Forall₂.cons hp hps⟩

namespace Session

/-- **Accepted expressions make a session**, with their polynomials as its last entries. -/
theorem foldlM_create {es : List String} {ps : List Polynomial} (h : Accepted es ps)
    (s : Session) : es.foldlM create s = .ok ⟨s.entries ++ ps⟩ := by
  induction h generalizing s with
  | nil =>
      rw [List.append_nil]
      rfl
  | @cons e p es ps he _ ih =>
      rw [List.foldlM_cons, create, he]
      show es.foldlM create (s.push p) = _
      rw [ih, push, List.append_assoc, List.singleton_append]

lemma length_push (s : Session) (p : Polynomial) : (s.push p).length = s.length + 1 := by
  simp [length, push]

/-! ## What is shown -/

/-- What is shown of entries that stand from position `n` on. -/
def shown (f : Nat → Polynomial → String) (n : Nat) : List Polynomial → String
  | [] => ""
  | p :: ps => f n p ++ shown f (n + 1) ps

/-- The line of an entry, with the line break behind it. -/
def row (n : Nat) (p : Polynomial) : String := entryLine n p ++ "\n"

lemma intercalate_append_lineEnd (n : Nat) (ps : List Polynomial) :
    "\n".intercalate ((ps.zipIdx n).map fun (p, i) => entryLine i p)
      ++ (if ps = [] then "" else "\n") = shown row n ps := by
  induction ps generalizing n with
  | nil => rfl
  | cons p ps ih =>
      rw [List.zipIdx_cons, List.map_cons, shown, ← ih]
      cases ps with
      | nil => simp [row]
      | cons q ps =>
          rw [List.zipIdx_cons, List.map_cons, String.intercalate_cons_cons, row]
          simp [String.append_assoc]

/-- **The listing is shown line by line**; there is a line break behind the last line, too. -/
theorem listing_append_lineEnd (s : Session) :
    s.listing ++ (if s.entries = [] then "" else "\n") = shown row 1 s.entries := by
  rw [← intercalate_append_lineEnd, listing, numbered, List.map_map]
  rfl

end Session

end LaurentCalc
