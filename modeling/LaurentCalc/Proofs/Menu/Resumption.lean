import LaurentCalc.Proofs.Output.Truncation
import Mathlib.Algebra.Group.Nat.Even

/-!
# Dialogues in instalments

Input may come in parts.  A dialogue whose input has ended so far says nothing more and does nothing
more, wherever it was held up, so what it has shown stays when further lines come.  If it was held
up between two rounds, there is nothing to remember of it but the session: the dialogue over the
rest of the input could as well be a new one.

The one thing shown twice then is the opening of the round: the first part ends with it, and the
dialogue over the rest begins with it.

* `exists_report` — what is shown before a selection ends with the opening of a round.
* **`converse_round_report`** — so does what is shown in the course of a round.
* **`converse_resume`** — behind complete rounds a dialogue goes on from the session alone; by
  induction, two lines at a time.
* `run_append_of_allComplete` — the same for a whole input.
* **`converse_piecewise`** — a dialogue held line by line, where what has been shown is forgotten.
* **`run_resumed`** — the dialogue over an input in two parts.
-/

namespace LaurentCalc.Menu

/-! ## What comes before a selection -/

/-- Before a selection is waited for, the choices are shown. -/
lemma exists_report {s : Session} {prompt : Prompt} {line : String}
    (h : (reply s prompt line).next = some .selection) :
    ∃ report, (reply s prompt line).output = report ++ opening := by
  cases prompt with
  | selection =>
      -- a selection never leads to the next one directly
      rw [reply] at h
      cases hchoice : Choice.ofLine? line with
      | none => rw [hchoice] at h; cases h
      | some choice => cases choice <;> rw [hchoice] at h <;> cases h
  | expression =>
      rw [reply, enter]
      split <;> exact ⟨_, rfl⟩
  | deletion =>
      rw [reply, remove]
      split
      · split <;> exact ⟨_, rfl⟩
      · exact ⟨_, rfl⟩
  | acknowledgement => exact ⟨_, rfl⟩

/-- **A round shows a report and then the choices**, and what it shows does not depend on the sink
or on the lines behind it. -/
theorem converse_round_report (s : Session) {l₁ l₂ : List UInt8} {first second : String}
    (h₁ : lineText? l₁ = some first) (h₂ : lineText? l₂ = some second)
    (hquit : unsigned? 0x100000000 (trimBlanks first) ≠ some 5) :
    ∃ report, ∀ (out : Sink), out.capacity = none → ∀ ls,
      converse s .selection out (l₁ :: l₂ :: ls)
        = converse (afterRound s (first, second)) .selection
          ((out.write report).write opening) ls := by
  obtain ⟨hkept, prompt, hprompt, hafter, hnext⟩ :=
    exists_reply s (mt (Choice.ofLine?_eq_some_iff first .quit).1 hquit) second
  obtain ⟨report, hreport⟩ := exists_report hnext
  refine ⟨(reply s .selection first).output ++ report, fun out hout ls => ?_⟩
  have hout' : (out.write (reply s .selection first).output).capacity = none := hout
  rw [converse_of_next hout h₁ hprompt, hkept, converse_of_next hout' h₂ hnext, hafter, hreport,
    Sink.write_append, Sink.write_append]

/-! ## Behind complete rounds -/

/-- The lines are those of complete rounds, two for each. -/
def AllComplete (ls : List (List UInt8)) : Prop :=
  ∀ round ∈ pairs ls, ∃ first second, Round.of round = .complete first second

/-- **Behind complete rounds** the dialogue is at the opening of a round again, with a session and
nothing else to go on with. -/
theorem converse_resume (s : Session) {ls : List (List UInt8)} (h : AllComplete ls) :
    ∃ s' shown, ∀ (out : Sink), out.capacity = none → ∀ rest,
      converse s .selection (out.write opening) (ls ++ rest)
        = converse s' .selection ((out.write shown).write opening) rest := by
  induction ls using pairs.induct generalizing s with
  | case1 =>
      refine ⟨s, "", fun out hout rest => ?_⟩
      rw [Sink.write_empty (Sink.accepts_of_unlimited hout ""), List.nil_append]
  | case2 l =>
      obtain ⟨first, second, hround⟩ := h (l, none) (by simp [pairs])
      obtain ⟨-, -, l', hl', -⟩ := of_eq_complete hround
      cases hl'
  | case3 l₁ l₂ ls ih =>
      rw [AllComplete, pairs, List.forall_mem_cons] at h
      obtain ⟨⟨first, second, hround⟩, hrest⟩ := h
      obtain ⟨h₁, hquit, l', hl', h₂⟩ := of_eq_complete hround
      cases hl'
      obtain ⟨report, hreport⟩ := converse_round_report s h₁ h₂ hquit
      obtain ⟨s', shown, hshown⟩ := ih (afterRound s (first, second)) hrest
      refine ⟨s', opening ++ report ++ shown, fun out hout rest => ?_⟩
      have hopened : (out.write opening).capacity = none := hout
      have hreported : ((out.write opening).write report).capacity = none := hout
      rw [List.cons_append, List.cons_append, hreport _ hopened, hshown _ hreported,
        Sink.write_append, Sink.write_append]

/-- Lines make complete rounds if their number is even, all of them are texts, and no selection is
the one to quit. -/
lemma allComplete_of_even {ls : List (List UInt8)} (heven : Even ls.length)
    (htexts : ∀ l ∈ ls, ∃ text, lineText? l = some text)
    (hquit : ∀ (k : Nat) (l : List UInt8) (first : String), ls[2 * k]? = some l →
      lineText? l = some first → unsigned? 0x100000000 (trimBlanks first) ≠ some 5) :
    AllComplete ls := by
  induction ls using pairs.induct with
  | case1 => simp [AllComplete, pairs]
  | case2 l => exact absurd heven Nat.not_even_one
  | case3 l₁ l₂ ls ih =>
      simp only [List.forall_mem_cons] at htexts
      obtain ⟨⟨first, h₁⟩, ⟨second, h₂⟩, htexts⟩ := htexts
      rw [AllComplete, pairs, List.forall_mem_cons]
      refine ⟨⟨first, second, ?_⟩, ih ?_ htexts fun k => hquit (k + 1)⟩
      · have hfirst := hquit 0 l₁ first rfl h₁
        simp [Round.of, h₁, h₂, hfirst]
      · simpa [Nat.even_add_one] using heven

/-! ## Input in two parts -/

/-- Without a limit, what a dialogue shows is put behind what the sink holds. -/
lemma converse_unlimited {out : Sink} (hout : out.capacity = none) (s : Session) (prompt : Prompt)
    (ls : List (List UInt8)) :
    converse s prompt out ls
      = ⟨(converse s prompt .unlimited ls).session, out.write (Write.join (writes s prompt ls)),
        (converse s prompt .unlimited ls).fault⟩ := by
  have hfree : Sink.unlimited.capacity = none := rfl
  have hbounded : out.Bounded := Sink.accepts_of_unlimited hout ""
  have hdeliver : out.deliver (writes s prompt ls)
      = (out.write (Write.join (writes s prompt ls)), none) :=
    Prod.ext (Sink.deliver_fst hbounded _)
      ((Sink.deliver_snd_eq_none_iff hbounded _).2 (Sink.accepts_of_unlimited hout _))
  rw [converse_deliver hfree, hdeliver]
  rfl

/-- An end with something shown before it. -/
def Ending.behind (shown : ByteArray) (ending : Ending) : Ending :=
  { ending with output := ⟨shown ++ ending.output.written, ending.output.capacity⟩ }

/-- **Line by line.**  A dialogue may be held with an empty sink in every pause, if what was written
is shown before the next line is read.  The output is then what was shown in the pauses, one after
the other, and at the end. -/
theorem converse_piecewise {pause : Pause} (hout : pause.output.capacity = none)
    (ls : List (List UInt8)) :
    converse pause.session pause.prompt pause.output ls
      = Ending.behind pause.output.written (match ls with
        | [] => converse pause.session pause.prompt .unlimited []
        | l :: ls =>
            match pause.shown.answer l with
            | .ok pause' => converse pause'.session pause'.prompt pause'.output ls
            | .error ending => ending) := by
  obtain ⟨s, prompt, out⟩ := pause
  obtain ⟨written, _⟩ := out
  cases hout
  have hfree : Sink.unlimited.capacity = none := rfl
  have hshown : converse s prompt ⟨written, none⟩ ls
      = Ending.behind written (converse s prompt .unlimited ls) := by
    rw [converse_unlimited rfl, converse_unlimited hfree]
    simp [Ending.behind, Sink.write, Sink.cut, Sink.unlimited, Sink.ofCapacity]
  cases ls with
  | nil => exact hshown
  | cons l ls => exact hshown

lemma run_unlimited (s : Session) (input : List UInt8) :
    run s .unlimited input = converse s .selection (Sink.unlimited.write opening) (lines input) :=
  if_pos (Sink.accepts_of_unlimited rfl opening)

/-- The record of a dialogue over complete lines is the beginning of any longer one. -/
lemma record_append (s : Session) {p : List UInt8}
    (hp : ∀ l ∈ lines p, l.getLast? = some lineFeed) (r : List UInt8) :
    ∃ later, record s (p ++ r) = record s p ++ later := by
  have htake : writes s .selection (lines p)
      = (writes s .selection (lines p ++ lines r)).take (lines p).length := by
    rw [← writes_take, List.take_left]
  refine ⟨(writes s .selection (lines p ++ lines r)).drop (lines p).length, ?_⟩
  rw [record, record, lines_append hp, htake, List.cons_append, List.take_append_drop]

/-- Behind complete rounds, the rest of the input is dealt with as in a new dialogue, whatever the
rest is. -/
theorem run_append_of_allComplete (s : Session) {p : List UInt8}
    (hp : ∀ l ∈ lines p, l.getLast? = some lineFeed) (h : AllComplete (lines p)) :
    ∃ s' shown, ∀ r, run s .unlimited (p ++ r)
      = ⟨(run s' .unlimited r).session, Sink.unlimited.write (shown ++ Write.join (record s' r)),
        (run s' .unlimited r).fault⟩ := by
  obtain ⟨s', shown, hresume⟩ := converse_resume s h
  refine ⟨s', shown, fun r => ?_⟩
  have hopened : (Sink.unlimited.write opening).capacity = none := rfl
  have hshown : ((Sink.unlimited.write shown).write opening).capacity = none := rfl
  rw [run_unlimited, run_unlimited, lines_append hp, hresume _ rfl, converse_unlimited hshown,
    converse_unlimited hopened, record, Write.join_cons, Sink.write_append, Sink.write_append]

/-- **Dialogues in instalments.**  Let the first part of an input be made of complete lines.  What
the dialogue over it shows is the beginning of what is shown when more input comes.  If the first
part is made of complete rounds, the dialogue over the whole input ends like the one over the second
part, from the session that the first part leaves.  It shows what the first part shows, up to the
last opening of a round, and then what the second part shows. -/
theorem run_resumed (s : Session) {p : List UInt8}
    (hp : ∀ l ∈ lines p, l.getLast? = some lineFeed) (r : List UInt8) :
    let former := run s .unlimited p
    let whole := run s .unlimited (p ++ r)
    (∃ more : String, whole.output.written = former.output.written ++ more.toUTF8)
    ∧ (Even (lines p).length → (∀ l ∈ lines p, ∃ text, lineText? l = some text) →
      (∀ (k : Nat) (l : List UInt8) (first : String), (lines p)[2 * k]? = some l →
        lineText? l = some first → unsigned? 0x100000000 (trimBlanks first) ≠ some 5) →
      let resumed := run former.session .unlimited r
      whole.session = resumed.session ∧ whole.fault = resumed.fault
        ∧ ∃ shown : String, former.output.written = (shown ++ opening).toUTF8
          ∧ whole.output.written = shown.toUTF8 ++ resumed.output.written) := by
  intro former whole
  constructor
  case left =>
    obtain ⟨later, hlater⟩ := record_append s hp r
    refine ⟨Write.join later, ?_⟩
    rw [show whole.output.written = _ from written_run s (p ++ r),
      show former.output.written = _ from written_run s p, hlater, Write.join_append]
    simp only [String.toUTF8_eq_toByteArray, String.toByteArray_append]
  case right =>
    intro heven htexts hquit resumed
    obtain ⟨s', shown, happend⟩ :=
      run_append_of_allComplete s hp (allComplete_of_even heven htexts hquit)
    have hformer : former = ⟨s', Sink.unlimited.write (shown ++ opening), none⟩ := by
      have hopening : Write.join (record s' []) = opening := by
        simp [record, lines, writes]
      have hend := happend []
      rw [List.append_nil, hopening, run_unlimited s' []] at hend
      exact hend
    have hresumed : resumed = run s' .unlimited r := by
      rw [show resumed = run former.session .unlimited r from rfl, hformer]
    rw [show whole = _ from happend r, hresumed, hformer]
    refine ⟨rfl, rfl, shown, Sink.written_unlimited _, ?_⟩
    rw [written_run, Sink.written_unlimited]
    simp only [String.toUTF8_eq_toByteArray, String.toByteArray_append]

/-- The first part ends behind a deletion that fails; the second is cut off in the middle of a line,
and makes an entry all the same. -/
theorem run_resumed_between_rounds :
    let p := "1\nx^2 - 1\n2\n9\n".toUTF8.data.toList
    let r := "1\n-x".toUTF8.data.toList
    let s : Session := ⟨[⟨[⟨1, 2⟩, ⟨-1, 0⟩], by decide⟩]⟩
    ((∀ l ∈ lines p, l.getLast? = some lineFeed) ∧ Even (lines p).length
        ∧ (∀ l ∈ lines p, ∃ text, lineText? l = some text)
        ∧ (run .empty .unlimited p).session = s)
      ∧ (∃ more : String, (run .empty .unlimited (p ++ r)).output.written
          = (run .empty .unlimited p).output.written ++ more.toUTF8)
      ∧ (run .empty .unlimited (p ++ r)).session = (run s .unlimited r).session
      ∧ (run s .unlimited r).session.entries.map Polynomial.text = ["x^2 - 1", "-x"] := by
  intro p r s
  have hp : ∀ l ∈ lines p, l.getLast? = some lineFeed := by decide +kernel
  have heven : Even (lines p).length := ⟨2, by decide +kernel⟩
  have htexts : ∀ l ∈ lines p, ∃ text, lineText? l = some text := by
    simp only [← Option.isSome_iff_exists]
    decide +kernel
  have hquit : ∀ (k : Nat) (l : List UInt8) (first : String), (lines p)[2 * k]? = some l →
      lineText? l = some first → unsigned? 0x100000000 (trimBlanks first) ≠ some 5 := by
    have hfirst : ∀ l ∈ lines p, ∀ text ∈ lineText? l,
        unsigned? 0x100000000 (trimBlanks text) ≠ some 5 := by decide +kernel
    exact fun k l first hl htext => hfirst l (List.mem_of_getElem? hl) first htext
  have hs : (run .empty .unlimited p).session = s := by decide +kernel
  obtain ⟨hmore, hresumed⟩ := run_resumed .empty hp r
  have hsession := (hresumed heven htexts hquit).1
  rw [hs] at hsession
  exact ⟨⟨hp, heven, htexts, hs⟩, hmore, hsession, by decide +kernel⟩

end LaurentCalc.Menu
