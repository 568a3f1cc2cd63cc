import Calculator.Command.Options
import Calculator.Session

/-!
# Output

What a run writes: values to the one stream, errors to the other. Assignments are written only if
they are echoed.
-/

namespace Calculator

/-- Texts for the two output streams. -/
structure Output where
  out : String := ""
  err : String := ""
  deriving DecidableEq

/-- Output after output, on each stream. -/
instance : Append Output where
  append first second := ⟨first.out ++ second.out, first.err ++ second.err⟩

/-- What is written for the answer to a line. -/
def Options.output (o : Options) : Answer → Output
  | .ok none => {}
  | .ok (some outcome@(.value _)) => { out := outcome.text ++ "\n" }
  | .ok (some outcome@(.assigned ..)) => if o.echo then { out := outcome.text ++ "\n" } else {}
  | .error e => { err := e.message ++ "\n" }

/-- The session in which a run starts. -/
def Options.session (o : Options) : Session := { maxDepth := o.maxDepth }

end Calculator
