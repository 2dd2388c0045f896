import LaurentCalc.Session
import LaurentCalc.Sink
import LaurentCalc.Text

/-!
# The menu

The menu is a dialogue about a session.  Every round asks for two lines: a selection, and then
whatever the selection calls for, be it only the return key.  What a line means depends on the
prompt it answers, and on nothing else but the session; so one function says it all.

* `Prompt` — what the next line is going to be.
* `Choice` — the five selections.
* `Menu.reply` — the answer to a line: the session after it, what is shown, and the next prompt.
* `Menu.Pause.answer` — one line of a dialogue, with what can go wrong with the streams.
* `Menu.converse`, `Menu.run` — the dialogue over the lines that are left, and over a whole input.

What is shown between two lines is written in one piece, because nothing can happen in between.
-/

namespace LaurentCalc

/-! ## Selections -/

/-- The meaning of the line that is waited for. -/
inductive Prompt where
  | selection
  | expression
  /-- The position of an entry to delete. -/
  | deletion
  /-- Any line at all. -/
  | acknowledgement
deriving DecidableEq, Repr

inductive Choice where
  | create
  | delete
  | list
  | sum
  | quit
deriving DecidableEq, Repr

/-- The selection that a line makes, by its number, which is read in 32 bits. -/
def Choice.ofLine? (line : String) : Option Choice :=
  match unsigned? 0x100000000 (trimBlanks line) with
  | some 1 => some create
  | some 2 => some delete
  | some 3 => some list
  | some 4 => some sum
  | some 5 => some quit
  | _ => none

/-! ## Texts -/

namespace Menu

def choices : String :=
  "Polynomial Calculator\n\n1.) Create new polynomial\n2.) Delete a polynomial\n"
    ++ "3.) Show list of polynomials\n4.) Add polynomials\n5.) Quit"

/-- What opens a round: the choices, and the mark that a line is waited for. -/
def opening : String := choices ++ "\n>"

/-- The entries of a session, or a remark that there are none. -/
def overview (s : Session) : String :=
  if s.entries.isEmpty then "(no polynomials)" else s.listing

def errorLine (fault : Fault) : String := "Error: " ++ fault.message ++ "\n"

def returnRequest : String := "(Press enter to return to main menu)\n"

/-! ## One line -/

/-- The dialogue after a line has been answered. -/
structure Turn where
  session : Session
  /-- What is shown. -/
  output : String
  /-- The meaning of the next line; there is none after the user has quit. -/
  next : Option Prompt

/-- The end of a round: a report, and the choices again. -/
def endRound (s : Session) (report : String) : Turn := ⟨s, report ++ opening, some .selection⟩

/-- The answer to a selection. -/
def select (s : Session) : Option Choice → Turn
  | some .create => ⟨s, "Enter Polynomial\n>", some .expression⟩
  | some .delete =>
      ⟨s, "Choose a polynomial to delete\n\n" ++ overview s ++ "\n>", some .deletion⟩
  | some .list =>
      ⟨s, "List of current polynomials\n\n" ++ overview s ++ "\n" ++ returnRequest,
        some .acknowledgement⟩
  | some .sum =>
      let result := match s.sum with
        | .ok p => p.text ++ "\n"
        | .error fault => errorLine fault
      ⟨s, "The sum of all polynomials is: \n" ++ result ++ returnRequest, some .acknowledgement⟩
  | some .quit => ⟨s, "", none⟩
  | none =>
      ⟨s, "Invalid input. Please try again (press enter to continue)\n", some .acknowledgement⟩

/-- The answer to an expression: it is stored and shown at its position. -/
def enter (s : Session) (line : String) : Turn :=
  match Polynomial.ofText line with
  | .ok p => endRound (s.push p) (Session.entryLine (s.push p).length p ++ "\n")
  | .error fault => endRound s (errorLine fault)

/-- The answer to the position of an entry, which is read in 64 bits: the entry is taken out and
shown. -/
def remove (s : Session) (line : String) : Turn :=
  match unsigned? 0x10000000000000000 (trimBlanks line) with
  | some position =>
      match s.delete position with
      | .ok (p, s') => endRound s' ("Deleted " ++ p.text ++ "\n")
      | .error fault => endRound s (errorLine fault)
  | none => endRound s ("Error: '" ++ trimBlanks line ++ "' is not a number\n")

/-- The answer to a line, by the prompt it follows. -/
def reply (s : Session) : Prompt → String → Turn
  | .selection, line => select s (Choice.ofLine? line)
  | .expression, line => enter s line
  | .deletion, line => remove s line
  | .acknowledgement, _ => endRound s ""

/-! ## The whole dialogue -/

/-- How a dialogue ends: the session, everything written, and the stream fault that ended it.
There is no fault when the user quits or the input ends. -/
structure Ending where
  session : Session
  output : Sink
  fault : Option StreamFault

/-- A pause of the dialogue: the next line has not been read, and this is what it will mean. -/
structure Pause where
  session : Session
  prompt : Prompt
  output : Sink

/-- What a line makes of a pause: the next pause, or the end.  What a line does to the session is
done even if the report of it no longer fits into the sink. -/
def Pause.answer (pause : Pause) (l : List UInt8) : Except Ending Pause :=
  match lineText? l with
  | none => .error ⟨pause.session, pause.output, some .notUtf8⟩
  | some line =>
      let turn := reply pause.session pause.prompt line
      let out := pause.output.write turn.output
      if pause.output.Accepts turn.output then
        match turn.next with
        | some prompt => .ok ⟨turn.session, prompt, out⟩
        | none => .error ⟨turn.session, out, none⟩
      else .error ⟨turn.session, out, some .full⟩

/-- The pause with everything shown that has been written: the output starts anew. -/
def Pause.shown (pause : Pause) : Pause := { pause with output := .unlimited }

/-- The dialogue over the remaining lines. -/
def converse (s : Session) (prompt : Prompt) (out : Sink) : List (List UInt8) → Ending
  | [] => ⟨s, out, none⟩
  | l :: ls =>
      match Pause.answer ⟨s, prompt, out⟩ l with
      | .ok pause => converse pause.session pause.prompt pause.output ls
      | .error ending => ending

def run (s : Session) (out : Sink) (input : List UInt8) : Ending :=
  if out.Accepts opening then converse s .selection (out.write opening) (lines input)
  else ⟨s, out.write opening, some .full⟩

end Menu

end LaurentCalc
