import LaurentCalc.CommandLine
import LaurentCalc.Menu

/-!
# The program

All of the program but its contact with the world: from the arguments and the whole of standard
input to the exit status and what is written to either output stream.

Without expressions among the arguments there is a dialogue.  With them there is none: the
expressions are read from left to right, each is shown in canonical form at its position, and their
sum comes last.  The first expression that cannot be read ends the run; those behind it are not
looked at.

* `Summation.run` — the run over a list of expressions, with its exit status and what was written
  to either stream.
* `Program.Outcome` — status and streams.
* `Program.run` — the outcome for given arguments and input.
-/

namespace LaurentCalc

/-! ## Summing expressions -/

namespace Summation

/-- How a run ends.  Results go to the sink, the one possible fault to `complaint`. -/
structure Report where
  /-- The exit status, unless the sink was full. -/
  status : Except StreamFault Nat
  output : Sink
  complaint : String

/-- A run that ends with a fault: status one, and a line about the fault. -/
def failed (out : Sink) (fault : Fault) : Report :=
  ⟨.ok 1, out, "Error: " ++ fault.message ++ "\n"⟩

/-- Write the last line of a run, which is then over with status zero. -/
def conclude (out : Sink) (line : String) : Report :=
  ⟨if out.Accepts line then .ok 0 else .error .full, out.write line, ""⟩

/-- The run over the remaining expressions, the polynomials of the others being in the session. -/
def runFrom (s : Session) (out : Sink) : List String → Report
  | [] =>
      match s.sum with
      | .ok p => conclude out ("sum: " ++ p.text ++ "\n")
      | .error fault => failed out fault
  | e :: es =>
      match Polynomial.ofText e with
      | .error fault => failed out fault
      | .ok p =>
          let s' := s.push p
          let line := Session.entryLine s'.length p ++ "\n"
          if out.Accepts line then runFrom s' (out.write line) es
          else ⟨.error .full, out.write line, ""⟩

def run (out : Sink) (expressions : List String) : Report := runFrom .empty out expressions

end Summation

/-! ## The outcome -/

namespace Program

/-- How the program ends. -/
structure Outcome where
  status : Nat
  output : ByteArray
  errors : String

def versionLine : String := "polycalc 0.1.0\n"

/-- What is printed on a request for help. -/
def helpText : String :=
  versionLine
    ++ "Adds polynomials in x with integer coefficients\n\n"
    ++ "USAGE:\n    polycalc [FLAGS] [EXPRESSION]...\n\n"
    ++ "FLAGS:\n"
    ++ "    -h, --help       Prints help information\n"
    ++ "    -v               Sets the level of verbosity\n"
    ++ "    -V, --version    Prints version information\n\n"
    ++ "ARGS:\n"
    ++ "    <EXPRESSION>...    Polynomials to add; starts the interactive menu when omitted\n"

def streamLine (fault : StreamFault) : String := "I/O error: " ++ fault.message ++ "\n"

def printing (text : String) : Outcome := ⟨0, text.toUTF8, ""⟩

def ofEnding (ending : Menu.Ending) : Outcome :=
  match ending.fault with
  | none => ⟨0, ending.output.written, ""⟩
  | some fault => ⟨1, ending.output.written, streamLine fault⟩

def ofReport (report : Summation.Report) : Outcome :=
  match report.status with
  | .ok status => ⟨status, report.output.written, report.complaint⟩
  | .error fault => ⟨1, report.output.written, report.complaint ++ streamLine fault⟩

/-- The outcome for the given arguments and standard input. -/
def run (arguments : List String) (input : List UInt8) : Outcome :=
  match Invocation.ofArguments arguments with
  | .help => printing helpText
  | .version => printing versionLine
  | .calculate [] _ => ofEnding (Menu.run .empty .unlimited input)
  | .calculate expressions _ => ofReport (Summation.run .unlimited expressions)

end Program

end LaurentCalc
