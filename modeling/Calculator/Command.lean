import Calculator.Command.Interactive
import Calculator.Command.Script

/-!
# The command line

A run reads its options and then answers one line, a script, or the lines of its input. It fails if
a line of the first two kinds is refused; a run on its input always succeeds.
-/

namespace Calculator

/-- What a run leaves behind. -/
structure Report where
  output : Output
  exitCode : UInt32
  deriving DecidableEq

/-- The name and the version of the program. -/
def versionText : String := "linecalc 0.1.0\n"

/-- The arguments of the program. -/
def helpText : String :=
  let defaults : Options := {}
  "A line-oriented arithmetic calculator with single-letter variables\n\n" ++
  "Usage: linecalc [OPTIONS] [CONTENTS]\n\n" ++
  "Arguments:\n" ++
  "  [CONTENTS]  A line to evaluate, or a file path with `--file`. " ++
  "Without it an interactive session starts\n\n" ++
  "Options:\n" ++
  "  -f, --file                         " ++
  "Tells linecalc to read lines from a file instead of evaluating a single line\n" ++
  "  -e, --echo                         Prints the value stored by each assignment\n" ++
  "      --exit-command <EXIT_COMMAND>  The line that ends the session " ++
  s!"[default: {defaults.exitCommand}]\n" ++
  "      --max-depth <MAX_DEPTH>        How many levels of parentheses an expression may nest " ++
  s!"[default: {defaults.maxDepth}]\n" ++
  "  -v, --verbose                      " ++
  "Logs every tokenized line and evaluation step to stderr\n" ++
  "  -h, --help                         Print help\n" ++
  "  -V, --version                      Print version\n"

/-- The answer to what is asked about the program. -/
def Inquiry.text : Inquiry → String
  | help => helpText
  | version => versionText

/-- The text for a script that cannot be read. -/
def unreadable (path : String) : String :=
  s!"Failed to read the input file '{path}'. Perhaps this file does not exist?\n"

/-- The report of a run that succeeds if no line was refused. -/
def Report.ofAccepted (output : Output) (accepted : Bool) : Report :=
  ⟨output, if accepted then 0 else 1⟩

namespace Options

/-- Answers one line. -/
def runLine (o : Options) (line : String) : Output × Bool :=
  let (answer, _) := o.session.answer line
  (o.output answer, answer.isOk)

/-- Runs with the text of the script, if there is one, and the input. -/
def run (o : Options) (script? : Option String) (input : String) : Report :=
  match o.operand with
  | none => ⟨o.runInteractive input, 0⟩
  | some operand =>
    if o.file then
      match script? with
      | none => ⟨{ err := unreadable operand }, 1⟩
      | some script =>
        let (output, accepted) := o.runScript script
        .ofAccepted output accepted
    else
      let (output, accepted) := o.runLine operand
      .ofAccepted output accepted

end Options

/-- The report on arguments that are not read to their end. -/
def Stop.report : Stop → Report
  | inquiry question => ⟨{ out := question.text }, 0⟩
  | usage error => ⟨{ err := error.message ++ "\n" }, 2⟩

/-- Runs the program on its arguments and its input. The texts of the files that can be read are
given by `readFile`. -/
def runCommand (readFile : String → Option String) (args : List String) (input : String) :
    Report :=
  match Options.ofArgs args with
  | .error stop => stop.report
  | .ok o => o.run (o.operand.bind readFile) input

end Calculator
