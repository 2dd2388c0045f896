import LaurentCalc.Program

/-!
# Entry point

The contact with the world.  Everything but the menu is decided by the arguments alone and is
computed at once; the menu is held line by line, so that every answer is seen before the next line
is typed.  What a line does is up to `Menu.Pause.answer` in either case.
-/

namespace LaurentCalc

/-- The bytes of the next line, its line feed included; no bytes at the end of the input. -/
partial def readLine (input : IO.FS.Stream) (line : List UInt8) : IO (List UInt8) := do
  match (← input.read 1).data.toList with
  | [] => return line.reverse
  | b :: _ => if b = lineFeed then return (b :: line).reverse else readLine input (b :: line)

/-- Hold the dialogue from a pause on, showing in every pause what has been written since the last
one.  What has been written since then in the end is left to be shown.  Every line takes the step
that `Menu.converse` takes; that forgetting what has been shown makes no difference is
`Menu.converse_piecewise`. -/
partial def talk (input output : IO.FS.Stream) (pause : Menu.Pause) : IO Menu.Ending := do
  output.write pause.output.written
  output.flush
  let line ← readLine input []
  if line.isEmpty then return Menu.converse pause.session pause.prompt .unlimited []
  match pause.shown.answer line with
  | .ok pause' => talk input output pause'
  | .error ending => return ending

end LaurentCalc

open LaurentCalc in
/-- The command line program. -/
def main (arguments : List String) : IO UInt32 := do
  let output ← IO.getStdout
  let outcome ← match Invocation.ofArguments arguments with
    | .calculate [] _ => do
        let start : Menu.Pause := ⟨.empty, .selection, Sink.unlimited.write Menu.opening⟩
        pure (Program.ofEnding (← talk (← IO.getStdin) output start))
    | _ => pure (Program.run arguments [])
  output.write outcome.output
  (← IO.getStderr).putStr outcome.errors
  return outcome.status.toUInt32
