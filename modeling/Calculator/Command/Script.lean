import Calculator.Command.Output

/-!
# Scripts

A script is a text whose lines are answered one after the other, up to the exit command. A refused
line does not end it.
-/

namespace Calculator

/-- The lines of a text, where `line`, its last character first, is the line read so far. A line
ends with a line feed, or with a carriage return and a line feed; the last line may have no end. -/
def linesFrom (line : List Char) : List Char → List String
  | [] => if line.isEmpty then [] else [String.ofList line.reverse]
  | c :: cs =>
    if c = '\n' then
      let line := match line with
        | '\r' :: line => line
        | line => line
      String.ofList line.reverse :: linesFrom [] cs
    else
      linesFrom (c :: line) cs

/-- The lines of a text. -/
def lines (text : String) : List String := linesFrom [] text.toList

namespace Options

/-- What is written for the lines of a script, and whether none of them was refused. -/
def runLines (o : Options) (s : Session) : List String → Output × Bool
  | [] => ({}, true)
  | line :: rest =>
    if line = o.exitCommand then
      ({}, true)
    else
      let (answer, s) := s.answer line
      let (output, accepted) := o.runLines s rest
      (o.output answer ++ output, answer.isOk && accepted)

/-- Runs a script. -/
def runScript (o : Options) (text : String) : Output × Bool := o.runLines o.session (lines text)

end Options

end Calculator
