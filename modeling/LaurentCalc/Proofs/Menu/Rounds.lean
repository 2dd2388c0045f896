import LaurentCalc.Menu
import LaurentCalc.Proofs.Text.Lines

/-!
# Rounds of the menu

The menu reads a line, and what it makes of the next one depends on this one.  If any of the
answers took a line too many or too few, everything typed after it would be misread: an expression
as a selection, a selection as an expression.  It does not happen.  Every round takes two lines,
whether what it was for succeeds or not, so a dialogue can be told from its lines alone, taken two
by two.

* `Round.of` — what becomes of a round, by its two lines.
* `afterRound` — what a complete round does to the session, in terms of what sessions can do.
* **`converse_round`** — a round takes two lines, and the next one starts where it should.
* **`converse_rounds`** — the dialogue is a fold over pairs of lines; by induction, two lines at a
  time.
* **`run_rounds`** — the same for a whole input, with what its lines are.

The sink is one without a limit.  Nothing is said about what is shown.
-/

namespace LaurentCalc

/-! ## Selections by their numbers -/

namespace Choice

/-- The number that makes a selection. -/
def number : Choice → Nat
  | create => 1
  | delete => 2
  | list => 3
  | sum => 4
  | quit => 5

lemma ofLine?_eq_some_iff (line : String) (choice : Choice) :
    ofLine? line = some choice
      ↔ unsigned? 0x100000000 (trimBlanks line) = some choice.number := by
  rw [ofLine?]
  generalize unsigned? 0x100000000 (trimBlanks line) = n
  split <;> cases choice <;> simp_all [number]

end Choice

namespace Menu

/-! ## Rounds -/

/-- The items two by two; the last one is alone if their number is odd. -/
def pairs {α : Type} : List α → List (α × Option α)
  | [] => []
  | [a] => [(a, none)]
  | a :: b :: as => (a, some b) :: pairs as

/-- What becomes of a round. -/
inductive Round where
  /-- Both lines are read, and this is what they say. -/
  | complete (first second : String)
  /-- The first line is the request to quit; there is no need for a second. -/
  | quit
  /-- There is no second line. -/
  | cut
  /-- A line that is read is not a text. -/
  | notUtf8
deriving DecidableEq, Repr

/-- The round held over two lines, or over the first line alone if it is the last. -/
def Round.of : List UInt8 × Option (List UInt8) → Round
  | (l, l') =>
      match lineText? l with
      | none => notUtf8
      | some first =>
          if unsigned? 0x100000000 (trimBlanks first) = some 5 then quit
          else match l' with
            | none => cut
            | some l' =>
                match lineText? l' with
                | none => notUtf8
                | some second => complete first second

/-- The stream fault that a round ends the dialogue with, if any. -/
def Round.fault : Round → Option StreamFault
  | notUtf8 => some .notUtf8
  | _ => none

/-- The complete rounds before the first one that is not. -/
def completeRounds : List Round → List (String × String)
  | .complete first second :: rounds => (first, second) :: completeRounds rounds
  | _ => []

/-- The first round that is not complete. -/
def lastRound : List Round → Option Round
  | [] => none
  | .complete _ _ :: rounds => lastRound rounds
  | r :: _ => some r

/-- What a complete round does to a session.  A first line that reads as one makes an entry of the
second, one that reads as two deletes the entry whose position the second is; where that fails, or
the first line reads as anything else, nothing is done. -/
def afterRound (s : Session) (round : String × String) : Session :=
  match unsigned? 0x100000000 (trimBlanks round.1) with
  | some 1 => (s.create round.2).toOption.getD s
  | some 2 =>
      match unsigned? 0x10000000000000000 (trimBlanks round.2) with
      | some position => ((s.delete position).toOption.map Prod.snd).getD s
      | none => s
  | _ => s

/-! ## Two lines -/

lemma session_enter (s : Session) (line : String) :
    (enter s line).session = (s.create line).toOption.getD s := by
  rw [enter, Session.create]
  cases Polynomial.ofText line <;> rfl

lemma next_enter (s : Session) (line : String) : (enter s line).next = some .selection := by
  rw [enter]
  split <;> rfl

lemma session_remove (s : Session) (line : String) :
    (remove s line).session = match unsigned? 0x10000000000000000 (trimBlanks line) with
      | some position => ((s.delete position).toOption.map Prod.snd).getD s
      | none => s := by
  rw [remove]
  cases unsigned? 0x10000000000000000 (trimBlanks line) with
  | none => rfl
  | some position =>
      dsimp only
      cases s.delete position <;> rfl

lemma next_remove (s : Session) (line : String) : (remove s line).next = some .selection := by
  rw [remove]
  split
  · split <;> rfl
  · rfl

lemma afterRound_of_ofLine? (s : Session) (first second : String) :
    afterRound s (first, second) = match Choice.ofLine? first with
      | some .create => (enter s second).session
      | some .delete => (remove s second).session
      | _ => s := by
  rw [afterRound]
  cases hchoice : Choice.ofLine? first with
  | none =>
      have hnumber : ∀ choice : Choice,
          unsigned? 0x100000000 (trimBlanks first) ≠ some choice.number := by
        intro choice hnumber
        rw [(Choice.ofLine?_eq_some_iff first choice).2 hnumber] at hchoice
        cases hchoice
      split
      · exact absurd ‹_› (hnumber .create)
      · exact absurd ‹_› (hnumber .delete)
      · rfl
  | some choice =>
      rw [(Choice.ofLine?_eq_some_iff first choice).1 hchoice]
      cases choice with
      | create => simp only [Choice.number, session_enter]
      | delete => simp only [Choice.number, session_remove]
      | list => rfl
      | sum => rfl
      | quit => rfl

/-- A selection other than to quit leaves the session as it is and asks for one more line; the
answer to that is the end of the round. -/
lemma exists_reply (s : Session) {first : String} (h : Choice.ofLine? first ≠ some .quit)
    (second : String) :
    (reply s .selection first).session = s
      ∧ ∃ prompt, (reply s .selection first).next = some prompt
        ∧ (reply s prompt second).session = afterRound s (first, second)
        ∧ (reply s prompt second).next = some .selection := by
  rw [afterRound_of_ofLine?, reply]
  cases hchoice : Choice.ofLine? first with
  | none => exact ⟨rfl, .acknowledgement, rfl, rfl, rfl⟩
  | some choice =>
      cases choice with
      | create => exact ⟨rfl, .expression, rfl, rfl, next_enter s second⟩
      | delete => exact ⟨rfl, .deletion, rfl, rfl, next_remove s second⟩
      | list => exact ⟨rfl, .acknowledgement, rfl, rfl, rfl⟩
      | sum => exact ⟨rfl, .acknowledgement, rfl, rfl, rfl⟩
      | quit => exact absurd hchoice h

/-! ## The dialogue -/

section Line

variable {out : Sink} {s : Session} {prompt : Prompt} {l : List UInt8} {line : String}

lemma answer_of_notUtf8 (hl : lineText? l = none) :
    Pause.answer ⟨s, prompt, out⟩ l = .error ⟨s, out, some .notUtf8⟩ := by
  simp only [Pause.answer, hl]

lemma answer_of_next (hfits : out.Accepts (reply s prompt line).output)
    (hl : lineText? l = some line) {prompt' : Prompt}
    (hnext : (reply s prompt line).next = some prompt') :
    Pause.answer ⟨s, prompt, out⟩ l
      = .ok ⟨(reply s prompt line).session, prompt', out.write (reply s prompt line).output⟩ := by
  simp only [Pause.answer, hl, hnext, if_pos hfits]

lemma answer_of_end (hfits : out.Accepts (reply s prompt line).output)
    (hl : lineText? l = some line) (hnext : (reply s prompt line).next = none) :
    Pause.answer ⟨s, prompt, out⟩ l
      = .error ⟨(reply s prompt line).session, out.write (reply s prompt line).output, none⟩ := by
  simp only [Pause.answer, hl, hnext, if_pos hfits]

/-- Whatever the answer would have led to, it is over when the answer does not fit. -/
lemma answer_of_full (hfull : ¬ out.Accepts (reply s prompt line).output)
    (hl : lineText? l = some line) :
    Pause.answer ⟨s, prompt, out⟩ l
      = .error ⟨(reply s prompt line).session, out.write (reply s prompt line).output,
        some .full⟩ := by
  simp only [Pause.answer, hl, if_neg hfull]

lemma converse_of_next (hout : out.capacity = none) (hl : lineText? l = some line)
    {prompt' : Prompt} (hnext : (reply s prompt line).next = some prompt')
    (ls : List (List UInt8)) :
    converse s prompt out (l :: ls)
      = converse (reply s prompt line).session prompt' (out.write (reply s prompt line).output)
        ls := by
  rw [converse, answer_of_next (Sink.accepts_of_unlimited hout _) hl hnext]

lemma converse_of_end (hout : out.capacity = none) (hl : lineText? l = some line)
    (hnext : (reply s prompt line).next = none) (ls : List (List UInt8)) :
    converse s prompt out (l :: ls)
      = ⟨(reply s prompt line).session, out.write (reply s prompt line).output, none⟩ := by
  rw [converse, answer_of_end (Sink.accepts_of_unlimited hout _) hl hnext]

end Line

/-- **A round takes two lines**, whatever becomes of what it was for. -/
theorem converse_round {out : Sink} (hout : out.capacity = none) (s : Session)
    {l₁ l₂ : List UInt8} {first second : String} (h₁ : lineText? l₁ = some first)
    (h₂ : lineText? l₂ = some second)
    (hquit : unsigned? 0x100000000 (trimBlanks first) ≠ some 5) :
    ∃ out', out'.capacity = none ∧ ∀ ls, converse s .selection out (l₁ :: l₂ :: ls)
      = converse (afterRound s (first, second)) .selection out' ls := by
  obtain ⟨hkept, prompt, hprompt, hafter, hnext⟩ :=
    exists_reply s (mt (Choice.ofLine?_eq_some_iff first .quit).1 hquit) second
  have hout' : (out.write (reply s .selection first).output).capacity = none := hout
  refine ⟨(out.write (reply s .selection first).output).write (reply s prompt second).output,
    hout', fun ls => ?_⟩
  rw [converse_of_next hout h₁ hprompt, hkept, converse_of_next hout' h₂ hnext, hafter]

/-- A round that is not complete is the last one, and leaves the session as it was. -/
lemma converse_incomplete {out : Sink} (hout : out.capacity = none) (s : Session)
    (l : List UInt8) (ls : List (List UInt8))
    (h : ∀ first second, Round.of (l, ls.head?) ≠ .complete first second) :
    (converse s .selection out (l :: ls)).session = s
      ∧ (converse s .selection out (l :: ls)).fault = (Round.of (l, ls.head?)).fault := by
  rw [Round.of] at h ⊢
  cases hl : lineText? l with
  | none => simp [converse, answer_of_notUtf8 hl, Round.fault]
  | some first =>
      by_cases hquit : unsigned? 0x100000000 (trimBlanks first) = some 5
      · have hreply : reply s .selection first = ⟨s, "", none⟩ := by
          rw [reply, (Choice.ofLine?_eq_some_iff first .quit).2 hquit]
          rfl
        have hend : (reply s .selection first).next = none := by rw [hreply]
        simp [converse_of_end hout hl hend, hreply, hquit, Round.fault]
      · obtain ⟨hkept, prompt, hprompt, -⟩ :=
          exists_reply s (mt (Choice.ofLine?_eq_some_iff first .quit).1 hquit) ""
        rw [converse_of_next hout hl hprompt, hkept]
        cases ls with
        | nil => simp [converse, hquit, Round.fault]
        | cons l' ls =>
            cases hl' : lineText? l' with
            | none => simp [converse, answer_of_notUtf8 hl', hquit, hl', Round.fault]
            | some second => exact absurd (by simp [hl, hquit, hl']) (h first second)

lemma of_eq_complete {l : List UInt8} {l' : Option (List UInt8)} {first second : String}
    (h : Round.of (l, l') = .complete first second) :
    lineText? l = some first ∧ unsigned? 0x100000000 (trimBlanks first) ≠ some 5
      ∧ ∃ l₂, l' = some l₂ ∧ lineText? l₂ = some second := by
  rw [Round.of] at h
  split at h
  next => cases h
  next hl =>
    split at h
    next => cases h
    next hquit =>
      split at h
      next => cases h
      next l₂ =>
        split at h
        next => cases h
        next hl₂ =>
          cases h
          exact ⟨hl, hquit, l₂, rfl, hl₂⟩

/-- Nothing is held after a round that is not complete. -/
lemma rounds_of_incomplete {r : Round} (h : ∀ first second, r ≠ .complete first second)
    (rs : List Round) : completeRounds (r :: rs) = [] ∧ lastRound (r :: rs) = some r := by
  cases r with
  | complete first second => exact absurd rfl (h first second)
  | quit => exact ⟨rfl, rfl⟩
  | cut => exact ⟨rfl, rfl⟩
  | notUtf8 => exact ⟨rfl, rfl⟩

/-- **The dialogue is a fold over pairs of lines.** -/
theorem converse_rounds {out : Sink} (hout : out.capacity = none) (s : Session)
    (ls : List (List UInt8)) :
    (converse s .selection out ls).session
        = (completeRounds ((pairs ls).map Round.of)).foldl afterRound s
      ∧ (converse s .selection out ls).fault
        = (lastRound ((pairs ls).map Round.of)).bind Round.fault := by
  induction ls using pairs.induct generalizing s out with
  | case1 => exact ⟨rfl, rfl⟩
  | case2 l =>
      have hincomplete : ∀ first second, Round.of (l, none) ≠ .complete first second := by
        intro first second hround
        obtain ⟨-, -, l', hl', -⟩ := of_eq_complete hround
        cases hl'
      obtain ⟨hcomplete, hlast⟩ := rounds_of_incomplete hincomplete []
      obtain ⟨hsession, hfault⟩ := converse_incomplete hout s l [] hincomplete
      rw [pairs, List.map_singleton, hcomplete, hlast, hsession, hfault]
      exact ⟨rfl, rfl⟩
  | case3 l₁ l₂ ls ih =>
      rw [pairs, List.map_cons]
      by_cases hround : ∃ first second, Round.of (l₁, some l₂) = .complete first second
      · obtain ⟨first, second, hround⟩ := hround
        obtain ⟨h₁, hquit, l', hl', h₂⟩ := of_eq_complete hround
        cases hl'
        obtain ⟨out', hout', hconverse⟩ := converse_round hout s h₁ h₂ hquit
        rw [hconverse, hround, completeRounds, lastRound, List.foldl_cons]
        exact ih hout' (afterRound s (first, second))
      · have hincomplete : ∀ first second, Round.of (l₁, some l₂) ≠ .complete first second :=
          fun first second h => hround ⟨first, second, h⟩
        obtain ⟨hcomplete, hlast⟩ := rounds_of_incomplete hincomplete ((pairs ls).map Round.of)
        obtain ⟨hsession, hfault⟩ := converse_incomplete hout s l₁ (l₂ :: ls) hincomplete
        rw [hcomplete, hlast, hsession, hfault]
        exact ⟨rfl, rfl⟩

/-- **The menu never loses step.**  There is one way to cut an input into lines.  The session in
the end is that after all complete rounds, the lines taken two by two, up to the first round that
is not complete; and only a line that is read and is no text makes the dialogue fail. -/
theorem run_rounds {out : Sink} (hout : out.capacity = none) (s : Session) (input : List UInt8) :
    Cut input (lines input)
      ∧ (∀ ls, Cut input ls → ls = lines input)
      ∧ (run s out input).session
        = (completeRounds ((pairs (lines input)).map Round.of)).foldl afterRound s
      ∧ (run s out input).fault
        = (lastRound ((pairs (lines input)).map Round.of)).bind Round.fault
      ∧ ∀ l₁ l₂ first second, lineText? l₁ = some first → lineText? l₂ = some second →
        unsigned? 0x100000000 (trimBlanks first) ≠ some 5 →
        ∃ out', out'.capacity = none ∧ ∀ ls, converse s .selection out (l₁ :: l₂ :: ls)
          = converse (afterRound s (first, second)) .selection out' ls := by
  have hopened : (out.write opening).capacity = none := hout
  rw [run, if_pos (Sink.accepts_of_unlimited hout opening)]
  obtain ⟨hsession, hfault⟩ := converse_rounds hopened s (lines input)
  exact ⟨cut_lines input, fun ls h => ((lines_eq_iff input ls).2 h).symm, hsession, hfault,
    fun l₁ l₂ first second h₁ h₂ hquit => converse_round hout s h₁ h₂ hquit⟩

/-- Two polynomials are created, one line is no expression, one selection means nothing, one entry
is deleted; then a line is broken, and the rest is not read. -/
theorem run_rounds_broken :
    let input := "1\nx\n1\r\n2x^3\n1\n^\n7\n1\n2\n1\n1\n".toUTF8.data.toList ++ [0xFF, 10, 53, 10]
    (run .empty .unlimited input).session.entries.map Polynomial.text = ["2x^3"]
      ∧ (run .empty .unlimited input).fault = some .notUtf8 := by
  intro input
  have hout : Sink.unlimited.capacity = none := rfl
  obtain ⟨-, -, hsession, hfault, -⟩ := run_rounds hout .empty input
  rw [hsession, hfault]
  decide +kernel

end Menu

end LaurentCalc
