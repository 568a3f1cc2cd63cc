import Calculator.Command

/-!
# The program

Reading the standard input, the script and the arguments, and writing to the standard streams. An
interactive run answers each line before it reads the next one.
-/

namespace Calculator

/-- Writes to the standard streams. -/
def Output.write (output : Output) : IO Unit := do
  IO.print output.out
  (← IO.getStdout).flush
  IO.eprint output.err

/-- The text of a script, if it can be read. -/
def readScript? (path : String) : IO (Option String) := do
  try
    return some (← IO.FS.readFile path)
  catch _ =>
    return none

/-- Answers the lines of the standard input, one exchange after the other. -/
partial def Options.answerInput (o : Options) (s : Session) : IO Unit := do
  Output.write { out := prompt }
  let text ← (← IO.getStdin).getLine
  match o.exchange? s text.toList with
  | none => return
  | some (output, s, _) =>
    output.write
    o.answerInput s

end Calculator

open Calculator

/-- The program. -/
def main (args : List String) : IO UInt32 := do
  match Options.ofArgs args with
  | .error stop =>
    stop.report.output.write
    return stop.report.exitCode
  | .ok o =>
    match o.operand with
    | none =>
      Output.write { out := o.banner }
      o.answerInput o.session
      return 0
    | some operand =>
      let script? ← if o.file then readScript? operand else pure none
      let report := o.run script? ""
      report.output.write
      return report.exitCode
