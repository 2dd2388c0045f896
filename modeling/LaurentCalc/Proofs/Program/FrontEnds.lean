import LaurentCalc.Proofs.Menu.Rounds
import LaurentCalc.Proofs.Output.Delivery
import LaurentCalc.Proofs.Session.Creation
import LaurentCalc.Proofs.Text.Typing
import LaurentCalc.Program

/-!
# One calculation, three ways

A list of expressions can be summed by a session, by a summation, which shows each of them as it
goes along, and in the menu, where they are typed one by one.  The three have their own loops, and
each numbers, shows and adds in its own place.  Still they come to the same session, and so to the
same listing, the same sum and the same fault.

The loops go over the expressions with one more entry each time, so each of them is taken to its
end by induction over the accepted expressions: from any session, on any sink without a limit, and
with anything left to do.

* **`Summation.runFrom_append`**, `Summation.run_accepted`, `Summation.run_refused` — a summation
  over accepted expressions, and where it ends.
* **`Menu.converse_creation`**, `Menu.converse_sum` — the dialogue that creates entries, and what is
  left of it when the sum is asked for.
* `Menu.run_script` — the two in a row.
* **`front_ends_agree`** — all three, and the first expression that is not accepted.
-/

namespace LaurentCalc

/-! ## Summation -/

namespace Summation

/-- **Accepted expressions are shown** one after the other, and are then in the session. -/
theorem runFrom_append {es : List String} {ps : List Polynomial} (h : Accepted es ps) {out : Sink}
    (hout : out.capacity = none) (s : Session) (rest : List String) :
    runFrom s out (es ++ rest)
      = runFrom ⟨s.entries ++ ps⟩ (out.write (Session.shown Session.row (s.length + 1) ps))
        rest := by
  induction h generalizing s out with
  | nil =>
      have hbounded : out.Bounded := Sink.accepts_of_unlimited hout ""
      rw [List.nil_append, List.append_nil, Session.shown, Sink.write_empty hbounded]
  | @cons e p es ps he _ ih =>
      have hout' : (out.write (Session.row (s.length + 1) p)).capacity = none := hout
      have hrow : Session.entryLine (s.push p).length p ++ "\n" = Session.row (s.length + 1) p := by
        rw [Session.length_push, Session.row]
      rw [List.cons_append, runFrom, he]
      simp only [hrow, if_pos (Sink.accepts_of_unlimited hout _)]
      rw [ih hout', Session.shown, Sink.write_append, Session.length_push, Session.push,
        List.append_assoc]
      rfl

/-- A run shows the listing of the session that the accepted expressions make, before it goes on
with what is left. -/
lemma run_append {es : List String} {ps : List Polynomial} (h : Accepted es ps)
    (rest : List String) :
    run .unlimited (es ++ rest)
      = runFrom ⟨ps⟩ (Sink.unlimited.write
          (Session.listing ⟨ps⟩ ++ (if es = [] then "" else "\n"))) rest := by
  have hempty : es = [] ↔ ps = [] := by cases h <;> simp
  rw [if_congr hempty rfl rfl, Session.listing_append_lineEnd]
  exact runFrom_append h rfl .empty rest

/-- **The run over accepted expressions** ends with the sum of their session. -/
theorem run_accepted {es : List String} {ps : List Polynomial} (h : Accepted es ps) :
    run .unlimited es
      = match Session.sum ⟨ps⟩ with
        | .ok r => ⟨.ok 0, Sink.unlimited.write (Session.listing ⟨ps⟩
            ++ (if es = [] then "" else "\n") ++ ("sum: " ++ r.text ++ "\n")), ""⟩
        | .error fault => ⟨.ok 1, Sink.unlimited.write (Session.listing ⟨ps⟩
            ++ (if es = [] then "" else "\n")), "Error: " ++ fault.message ++ "\n"⟩ := by
  have hrun := run_append h []
  rw [List.append_nil, runFrom] at hrun
  rw [hrun]
  cases Session.sum ⟨ps⟩ with
  | error fault => rfl
  | ok r =>
      dsimp only [conclude]
      rw [if_pos (Sink.accepts_of_unlimited rfl _), ← Sink.write_append]

/-- **The first expression that is not accepted** ends the run, whatever comes after it. -/
theorem run_refused {before : List String} {ps : List Polynomial} (h : Accepted before ps)
    {e : String} {fault : Fault} (he : Polynomial.ofText e = .error fault) (after : List String) :
    run .unlimited (before ++ e :: after)
      = ⟨.ok 1, Sink.unlimited.write (Session.listing ⟨ps⟩
          ++ (if before = [] then "" else "\n")), "Error: " ++ fault.message ++ "\n"⟩ := by
  rw [run_append h, runFrom, he]
  rfl

end Summation

/-! ## The menu -/

namespace Menu

/-- What is typed to create entries for these expressions, to have them added, and to quit. -/
def script (es : List String) : List String := es.flatMap (["1", ·]) ++ ["4", "", "5"]

/-- What is shown when an entry is created, from the selection on. -/
def exchange (n : Nat) (p : Polynomial) : String :=
  "Enter Polynomial\n>" ++ (Session.entryLine n p ++ "\n" ++ opening)

variable {out : Sink}

/-- A typed line, by the answer to it. -/
lemma converse_typed {s s' : Session} {prompt prompt' : Prompt} {text answer : String}
    (hout : out.capacity = none)
    (hreply : reply s prompt (dropLineEnd text) = ⟨s', answer, some prompt'⟩)
    (ls : List (List UInt8)) :
    converse s prompt out (typed text :: ls) = converse s' prompt' (out.write answer) ls := by
  have hnext : (reply s prompt (dropLineEnd text)).next = some prompt' := by rw [hreply]
  rw [converse_of_next hout (lineText?_typed text) hnext, hreply]

/-- Two lines create an entry for an accepted expression. -/
lemma converse_create {e : String} {p : Polynomial} (hout : out.capacity = none)
    (he : Polynomial.ofText e = .ok p) (s : Session) (ls : List (List UInt8)) :
    converse s .selection out (typed "1" :: typed e :: ls)
      = converse (s.push p) .selection (out.write (exchange (s.length + 1) p)) ls := by
  have hchoice : Choice.ofLine? (dropLineEnd "1") = some .create := rfl
  have hselect : reply s .selection (dropLineEnd "1")
      = ⟨s, "Enter Polynomial\n>", some .expression⟩ := by
    rw [reply, hchoice, select]
  have henter : reply s .expression (dropLineEnd e)
      = ⟨s.push p, Session.entryLine (s.length + 1) p ++ "\n" ++ opening, some .selection⟩ := by
    rw [reply, enter, ofText_dropLineEnd he]
    simp only [endRound, Session.length_push]
  have hout' : (out.write "Enter Polynomial\n>").capacity = none := hout
  have hexchange : out.write (exchange (s.length + 1) p) = (out.write "Enter Polynomial\n>").write
      (Session.entryLine (s.length + 1) p ++ "\n" ++ opening) := Sink.write_append out _ _
  rw [converse_typed hout hselect, converse_typed hout' henter, hexchange]

/-- Typing accepted expressions creates entries for them. -/
theorem converse_creation {es : List String} {ps : List Polynomial} (h : Accepted es ps)
    (hout : out.capacity = none) (s : Session) (ls : List (List UInt8)) :
    converse s .selection out ((es.flatMap (["1", ·])).map typed ++ ls)
      = converse ⟨s.entries ++ ps⟩ .selection
        (out.write (Session.shown exchange (s.length + 1) ps)) ls := by
  induction h generalizing s out with
  | nil =>
      have hbounded : out.Bounded := Sink.accepts_of_unlimited hout ""
      rw [List.append_nil, Session.shown, Sink.write_empty hbounded]
      rfl
  | @cons e p es ps he _ ih =>
      have hout' : (out.write (exchange (s.length + 1) p)).capacity = none := hout
      rw [List.flatMap_cons, List.map_append, List.append_assoc]
      -- the first two lines are those of the first expression
      show converse s .selection out
        (typed "1" :: typed e :: ((es.flatMap (["1", ·])).map typed ++ ls)) = _
      rw [converse_create hout he, ih hout', Session.shown, Sink.write_append,
        Session.length_push, Session.push, List.append_assoc]
      rfl

/-- What is shown under the heading of a sum: the polynomial, or why there is none. -/
def sumLine : Except Fault Polynomial → String
  | .ok r => r.text ++ "\n"
  | .error fault => "Error: " ++ fault.message ++ "\n"

lemma select_sum (s : Session) :
    select s (some .sum)
      = ⟨s, "The sum of all polynomials is: \n" ++ sumLine s.sum ++ returnRequest,
        some .acknowledgement⟩ := by
  rw [select]
  cases s.sum <;> rfl

/-- Asking for the sum shows it under its heading; then the dialogue is over. -/
lemma converse_sum (hout : out.capacity = none) (s : Session) :
    converse s .selection out (["4", "", "5"].map typed)
      = ⟨s, out.write ("The sum of all polynomials is: \n" ++ sumLine s.sum ++ returnRequest
          ++ opening), none⟩ := by
  have hsum : Choice.ofLine? (dropLineEnd "4") = some .sum := rfl
  have hquit : Choice.ofLine? (dropLineEnd "5") = some .quit := rfl
  have hfour : reply s .selection (dropLineEnd "4")
      = ⟨s, "The sum of all polynomials is: \n" ++ sumLine s.sum ++ returnRequest,
        some .acknowledgement⟩ := by
    rw [reply, hsum, select_sum]
  have hreturn : reply s .acknowledgement (dropLineEnd "")
      = ⟨s, opening, some .selection⟩ := by
    rw [reply, endRound, String.empty_append]
  have hfive : reply s .selection (dropLineEnd "5") = ⟨s, "", none⟩ := by
    rw [reply, hquit, select]
  have hout' : ∀ text, (out.write text).capacity = none := fun _ => hout
  have hend : ∀ out' : Sink, out'.capacity = none →
      converse s .selection out' [typed "5"] = ⟨s, out', none⟩ := by
    intro out' hout'
    have hbounded : out'.Bounded := Sink.accepts_of_unlimited hout' ""
    have hnext : (reply s .selection (dropLineEnd "5")).next = none := by rw [hfive]
    rw [converse_of_end hout' (lineText?_typed "5") hnext, hfive, Sink.write_empty hbounded]
  rw [List.map_cons, List.map_cons, List.map_singleton, converse_typed hout hfour,
    converse_typed (hout' _) hreturn, ← Sink.write_append]
  exact hend _ (hout' _)

/-- **The dialogue over a script**: entries for all expressions, and then their sum. -/
theorem run_script {es : List String} {ps : List Polynomial} (h : Accepted es ps)
    (hlines : ∀ e ∈ es, OneLine e) :
    run .empty .unlimited ((script es).flatMap typed)
      = ⟨⟨ps⟩, Sink.unlimited.write (opening ++ Session.shown exchange 1 ps
          ++ "The sum of all polynomials is: \n" ++ sumLine (Session.sum ⟨ps⟩)
          ++ (returnRequest ++ opening)), none⟩ := by
  have hscript : ∀ text ∈ script es, OneLine text := by
    intro text htext
    simp only [script, List.mem_append, List.mem_flatMap, List.mem_cons, List.not_mem_nil,
      or_false] at htext
    rcases htext with ⟨e, he, rfl | rfl⟩ | rfl | rfl | rfl
    · decide
    · exact hlines _ he
    all_goals decide
  have hout : ∀ text, (Sink.unlimited.write text).capacity = none := fun _ => rfl
  rw [run, if_pos (Sink.accepts_of_unlimited rfl _), lines_typed hscript, script, List.map_append,
    converse_creation h (hout _), ← Sink.write_append, converse_sum (hout _), ← Sink.write_append]
  simp only [Session.empty, Session.length, List.length_nil, List.nil_append, String.append_assoc]

end Menu

/-! ## Agreement -/

/-- **The three ways agree.**  Accepted expressions make one and the same session.  A summation
shows the listing of that session and then its sum, with status zero exactly if there is one; in
the menu, where the expressions are typed line by line, the sum is shown under its heading, and the
line that takes its place is the one that the summation reports.

If there is an expression that is not accepted, a summation shows the listing of the session made
of those before the first such, and reports the fault that this session refuses it with.  What comes
after it makes no difference.

A report takes one line, unless the expression that it repeats takes more. -/
theorem front_ends_agree :
    (∀ es : List String, (∀ e ∈ es, ∃ p, Polynomial.ofText e = .ok p) →
      ∃ s, es.foldlM Session.create .empty = .ok s
        ∧ (∀ r, s.sum = .ok r → Summation.run .unlimited es
            = ⟨.ok 0, Sink.unlimited.write (s.listing ++ (if es = [] then "" else "\n")
                ++ ("sum: " ++ r.text ++ "\n")), ""⟩)
        ∧ (∀ fault, s.sum = .error fault → OneLine fault.message
            ∧ Summation.run .unlimited es
              = ⟨.ok 1, Sink.unlimited.write (s.listing ++ (if es = [] then "" else "\n")),
                "Error: " ++ fault.message ++ "\n"⟩)
        ∧ ((Summation.run .unlimited es).status = .ok 0 ↔ ∃ r, s.sum = .ok r)
        ∧ ((∀ e ∈ es, OneLine e) →
            let menu := Menu.run .empty .unlimited ((Menu.script es).flatMap typed)
            let before := Menu.opening ++ Session.shown Menu.exchange 1 s.entries
            let after := "(Press enter to return to main menu)\n" ++ Menu.opening
            (∀ r, s.sum = .ok r → menu
                = ⟨s, Sink.unlimited.write (before ++ "The sum of all polynomials is: \n"
                    ++ (r.text ++ "\n") ++ after), none⟩)
            ∧ ∀ fault, s.sum = .error fault → menu
                = ⟨s, Sink.unlimited.write (before ++ "The sum of all polynomials is: \n"
                    ++ ("Error: " ++ fault.message ++ "\n") ++ after), none⟩))
      ∧ ∀ (before : List String) (e : String) (fault : Fault),
        (∀ e' ∈ before, ∃ p, Polynomial.ofText e' = .ok p) → Polynomial.ofText e = .error fault →
          ∃ s, before.foldlM Session.create .empty = .ok s ∧ s.create e = .error fault
            ∧ (OneLine e → OneLine fault.message)
            ∧ ∀ after, Summation.run .unlimited (before ++ e :: after)
              = ⟨.ok 1, Sink.unlimited.write (s.listing ++ (if before = [] then "" else "\n")),
                  "Error: " ++ fault.message ++ "\n"⟩ := by
  constructor
  case left =>
    intro es haccepted
    obtain ⟨ps, hps⟩ := exists_accepted haccepted
    have hrun := Summation.run_accepted hps
    refine ⟨⟨ps⟩, Session.foldlM_create hps .empty, ?_, ?_, ?_, ?_⟩
    case refine_1 =>
      intro r hr
      rw [hrun, hr]
    case refine_2 =>
      intro fault hfault
      rw [hrun, hfault]
      exact ⟨Session.oneLine_message_of_sum hfault, rfl⟩
    case refine_3 =>
      rw [hrun]
      cases Session.sum ⟨ps⟩ with
      | ok r => exact iff_of_true rfl ⟨r, rfl⟩
      | error fault => exact iff_of_false (by simp) (by simp)
    case refine_4 =>
      intro hlines menu before after
      have hmenu := Menu.run_script hps hlines
      constructor
      · intro r hr
        rw [hr] at hmenu
        exact hmenu
      · intro fault hfault
        rw [hfault] at hmenu
        exact hmenu
  case right =>
    intro before e fault haccepted he
    obtain ⟨ps, hps⟩ := exists_accepted haccepted
    refine ⟨⟨ps⟩, Session.foldlM_create hps .empty, ?_,
      fun hline => oneLine_message_of_ofText hline he, Summation.run_refused hps he⟩
    rw [Session.create, he]
    rfl

/-- A sum shown by a summation and in the menu, where a line ends with a carriage return; a sum
that overflows, reported by both; and an expression that is not accepted, with another behind it. -/
theorem front_ends_agree_on_faults :
    let s : Session := ⟨[⟨[⟨-1, 1⟩, ⟨1, 0⟩], by decide⟩, ⟨[⟨1, 2⟩, ⟨1, 1⟩], by decide⟩]⟩
    let large : Session := ⟨[⟨[⟨9223372036854775807, 1⟩], by decide⟩, ⟨[⟨1, 1⟩], by decide⟩]⟩
    let menu (es : List String) := Menu.run .empty .unlimited ((Menu.script es).flatMap typed)
    let choices := "Polynomial Calculator\n\n1.) Create new polynomial\n2.) Delete a polynomial\n"
      ++ "3.) Show list of polynomials\n4.) Add polynomials\n5.) Quit\n>"
    (Summation.run .unlimited ["-x + 1", "x^2 + x\r"]
        = ⟨.ok 0, Sink.unlimited.write "1.) -x + 1\n2.) x^2 + x\nsum: x^2 + 1\n", ""⟩
      ∧ menu ["-x + 1", "x^2 + x\r"] = ⟨s, Sink.unlimited.write
        (choices ++ "Enter Polynomial\n>1.) -x + 1\n" ++ choices
          ++ "Enter Polynomial\n>2.) x^2 + x\n" ++ choices
          ++ "The sum of all polynomials is: \nx^2 + 1\n(Press enter to return to main menu)\n"
          ++ choices), none⟩)
      ∧ (Summation.run .unlimited ["9223372036854775807x", "x"]
        = ⟨.ok 1, Sink.unlimited.write "1.) 9223372036854775807x\n2.) x\n",
          "Error: coefficient overflow while adding +9223372036854775807x and +x\n"⟩
        ∧ menu ["9223372036854775807x", "x"] = ⟨large, Sink.unlimited.write
          (choices ++ "Enter Polynomial\n>1.) 9223372036854775807x\n" ++ choices
            ++ "Enter Polynomial\n>2.) x\n" ++ choices
            ++ "The sum of all polynomials is: \n"
            ++ "Error: coefficient overflow while adding +9223372036854775807x and +x\n"
            ++ "(Press enter to return to main menu)\n" ++ choices), none⟩)
      ∧ Summation.run .unlimited ["x", "1 + $", "x^2"]
        = ⟨.ok 1, Sink.unlimited.write "1.) x\n",
          "Error: malformed expression '1 + $': illegal character '$' at position 5\n"⟩ := by
  intro s large menu choices
  let r : Polynomial := ⟨[⟨1, 2⟩, ⟨1, 0⟩], by decide⟩
  let overflow : Fault := .coefficientOverflow ⟨9223372036854775807, 1⟩ ⟨1, 1⟩
  let refused : Fault := .malformed "1 + $" (.illegalCharacter '$' 5)
  obtain ⟨s', hs, hsum, -, -, hmenu⟩ := front_ends_agree.1 ["-x + 1", "x^2 + x\r"] (by
    rintro e he
    rcases List.mem_pair.1 he with rfl | rfl
    · exact ⟨⟨[⟨-1, 1⟩, ⟨1, 0⟩], by decide⟩, rfl⟩
    · exact ⟨⟨[⟨1, 2⟩, ⟨1, 1⟩], by decide⟩, rfl⟩)
  obtain rfl : s = s' := Except.ok.inj hs
  obtain ⟨s', hs, -, hoverflow, -, hmenu'⟩ := front_ends_agree.1 ["9223372036854775807x", "x"] (by
    rintro e he
    rcases List.mem_pair.1 he with rfl | rfl
    · exact ⟨⟨[⟨9223372036854775807, 1⟩], by decide⟩, rfl⟩
    · exact ⟨⟨[⟨1, 1⟩], by decide⟩, rfl⟩)
  obtain rfl : large = s' := Except.ok.inj hs
  obtain ⟨s', hs, -, -, hrefused⟩ := front_ends_agree.2 ["x"] "1 + $" refused (by
    rintro e he
    obtain rfl := List.mem_singleton.1 he
    exact ⟨⟨[⟨1, 1⟩], by decide⟩, rfl⟩) rfl
  obtain rfl : (⟨[⟨[⟨1, 1⟩], by decide⟩]⟩ : Session) = s' := Except.ok.inj hs
  have hshown := (hmenu (by decide +kernel)).1 r rfl
  have hfull := (hoverflow overflow rfl).2
  have hreported := (hmenu' (by decide +kernel)).2 overflow rfl
  have hstopped := hrefused ["x^2"]
  have hreport : "Error: " ++ overflow.message ++ "\n"
      = "Error: coefficient overflow while adding +9223372036854775807x and +x\n" := by
    decide +kernel
  have hrefusal : "Error: " ++ refused.message ++ "\n"
      = "Error: malformed expression '1 + $': illegal character '$' at position 5\n" := by
    decide +kernel
  rw [hreport] at hfull hreported
  rw [hrefusal] at hstopped
  refine ⟨⟨(hsum r rfl).trans ?_, hshown.trans ?_⟩, ⟨hfull.trans ?_, hreported.trans ?_⟩,
    hstopped.trans ?_⟩
  -- the texts are all that is left to compare
  · exact congrArg (fun text => Summation.Report.mk (.ok 0) (Sink.unlimited.write text) "")
      (by decide +kernel)
  · exact congrArg (fun text => Menu.Ending.mk s (Sink.unlimited.write text) none)
      (by decide +kernel)
  · exact congrArg (fun text => Summation.Report.mk (.ok 1) (Sink.unlimited.write text) _)
      (by decide +kernel)
  · exact congrArg (fun text => Menu.Ending.mk large (Sink.unlimited.write text) none)
      (by decide +kernel)
  · exact congrArg (fun text => Summation.Report.mk (.ok 1) (Sink.unlimited.write text) _)
      (by decide +kernel)

end LaurentCalc
