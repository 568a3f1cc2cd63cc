import Calculator.Command
import Calculator.Proofs.Command.Lines
import Calculator.Proofs.Command.Options
import Calculator.Proofs.Session.Run

/-!
# What a script writes

A run on a script answers the lines before the exit command, each with the variables that the lines
before it have left, and goes on after a line that is refused. Values go to one stream and errors to
the other, in the order of the lines.

* `Session.getElem?_answerAll`: each of some lines is answered after those before it.
* `transcript`: what is written for some answers.
* `Options.runLines_eq`: the lines of a script, up to the exit command.
* `runCommand_script`: the whole run.
-/

namespace Calculator

/-! ## Answers -/

/-- Each line is answered in the session that the lines before it have left, whatever their answers
are. -/
theorem Session.getElem?_answerAll (s : Session) (lines : List String) (i : Nat) :
    (s.answerAll lines).1[i]? = lines[i]?.map fun line =>
      (((lines.take i).foldl (fun s line => (s.answer line).2) s).answer line).1 := by
  induction lines generalizing s i with
  | nil => rfl
  | cons line lines ih =>
    rw [answerAll_cons]
    cases i with
    | zero => rfl
    | succ i => exact ih (s.answer line).2 i

/-- The outcomes among some answers. -/
def outcomes (answers : List Answer) : List Outcome :=
  answers.filterMap fun
    | .ok outcome? => outcome?
    | .error _ => none

/-- The errors among some answers. -/
def errors (answers : List Answer) : List LineError :=
  answers.filterMap fun
    | .ok _ => none
    | .error e => some e

/-- Whether an outcome is the value of an expression. -/
def Outcome.isValue : Outcome → Bool
  | value _ => true
  | assigned .. => false

/-- Texts on lines of their own. -/
def unlines : List String → String
  | [] => ""
  | text :: texts => text ++ "\n" ++ unlines texts

/-- What is written for some answers: all values and errors, and assignments if they are echoed. -/
def transcript (echo : Bool) (answers : List Answer) : Output where
  out := unlines (((outcomes answers).filter fun x => echo || x.isValue).map Outcome.text)
  err := unlines ((errors answers).map LineError.message)

theorem all_isOk (answers : List Answer) :
    answers.all Except.isOk = (errors answers).isEmpty := by
  induction answers with
  | nil => rfl
  | cons answer answers ih =>
    cases answer with
    | error e => rfl
    | ok outcome? => exact ih

namespace Options

/-- The answer to a line is written in front of those to the lines after it. -/
theorem output_append (o : Options) (answer : Answer) (answers : List Answer) :
    o.output answer ++ transcript o.echo answers = transcript o.echo (answer :: answers) := by
  have happend : ∀ first second : Output,
      first ++ second = ⟨first.out ++ second.out, first.err ++ second.err⟩ := fun _ _ => rfl
  rw [happend]
  cases answer with
  | error e => simp [output, transcript, outcomes, errors, unlines]
  | ok outcome? =>
    cases outcome? with
    | none => simp [output, transcript, outcomes, errors]
    | some outcome =>
      cases outcome with
      | value x => simp [output, transcript, outcomes, errors, unlines, Outcome.isValue]
      | assigned name x =>
        cases he : o.echo with
        | false => simp [output, transcript, outcomes, errors, Outcome.isValue, he]
        | true => simp [output, transcript, outcomes, errors, unlines, Outcome.isValue, he]

/-- The lines up to the exit command are answered and no others. -/
theorem runLines_eq (o : Options) (s : Session) (ls : List String) :
    o.runLines s ls =
      let answers := (s.answerAll (ls.takeWhile (· ≠ o.exitCommand))).1
      (transcript o.echo answers, answers.all Except.isOk) := by
  induction ls generalizing s with
  | nil => rfl
  | cons line ls ih =>
    rw [runLines]
    by_cases hexit : line = o.exitCommand
    · rw [if_pos hexit, List.takeWhile_cons_of_neg (by simpa using hexit)]
      rfl
    · rw [if_neg hexit, List.takeWhile_cons_of_pos (by simpa using hexit)]
      simp only [ih, Session.answerAll_cons, output_append, List.all_cons]

/-- A run on a script that can be read. -/
theorem run_script {o : Options} {path : String} (hfile : o.file = true)
    (hoperand : o.operand = some path) (script input : String) :
    o.run (some script) input =
      let answers := (o.session.answerAll ((lines script).takeWhile (· ≠ o.exitCommand))).1
      .ofAccepted (transcript o.echo answers) (errors answers).isEmpty := by
  rw [run, hoperand]
  simp only [hfile, if_true, runScript, runLines_eq, all_isOk]

end Options

/-- A run on a script, with any exit command, limit and echo. The lines before the exit command are
answered in turn, the first in a session without variables and each other in the session that the
lines before it have left. The values, the assignments if they are echoed, and the errors are
written in the order of the lines, and the run succeeds if there are no errors. -/
theorem runCommand_script :
    (∀ echo exitCommand maxDepth path, maxDepth < Nat.pow 2 64 → ∃ args, Options.ofArgs args =
      .ok { file := true, echo, exitCommand, maxDepth, operand := some path }) ∧
    ∀ (readFile : String → Option String) args input echo exitCommand maxDepth path script,
      Options.ofArgs args =
        .ok { file := true, echo, exitCommand, maxDepth, operand := some path } →
      readFile path = some script →
      let start : Session := { maxDepth }
      let processed := (lines script).takeWhile (· ≠ exitCommand)
      let answers := (start.answerAll processed).1
      (∀ ls, lines script = ls ↔ Cut script.toList ls) ∧
      (∀ i : Nat, answers[i]? = processed[i]?.map fun line =>
        (((processed.take i).foldl (fun s line => (s.answer line).2) start).answer line).1) ∧
      runCommand readFile args input =
        { output :=
            { out := unlines (((outcomes answers).filter fun x => echo || x.isValue).map
                Outcome.text)
              err := unlines ((errors answers).map LineError.message) }
          exitCode := if errors answers = [] then 0 else 1 } := by
  refine ⟨fun echo exitCommand maxDepth path h => ⟨_, Options.ofArgs_toArgs h⟩, ?_⟩
  intro readFile args input echo exitCommand maxDepth path script hargs hfile start processed
    answers
  refine ⟨fun ls => lines_eq_iff, start.getElem?_answerAll processed, ?_⟩
  have hbind : Option.bind (some path) readFile = some script := hfile
  rw [runCommand, hargs]
  simp only [hbind]
  rw [Options.run_script rfl rfl]
  simp only [Report.ofAccepted, List.isEmpty_iff]
  rfl

/-- An assignment is echoed, the lines after a failed one are answered, and the last line is not. -/
theorem runCommand_script_division :
    let args := ["-ef", "sums", "--exit-command", "quit", "--max-depth=0"]
    let o : Options :=
      { file := true, echo := true, exitCommand := "quit", maxDepth := 0, operand := some "sums" }
    let script := "x = 2\r\n1/0\n\n2x\nE\nquit\n3"
    let readFile := fun path => if path = "sums" then some script else none
    (o.maxDepth < Nat.pow 2 64 ∧ ∃ args, Options.ofArgs args = .ok o) ∧
    Options.ofArgs args = .ok o ∧ readFile "sums" = some script ∧
    runCommand readFile args "" =
      { output :=
          { out := "x = 2\n=4\n"
            err := "Division by zero\nInvalid expression: Unsupported operation: 'E'\n" }
        exitCode := 1 } := by
  intro args o script readFile
  obtain ⟨hgiven, hrun⟩ := runCommand_script
  have hargs : Options.ofArgs args = .ok o := by decide +kernel
  have hfile : readFile "sums" = some script := if_pos rfl
  refine ⟨⟨by decide, hgiven true "quit" 0 "sums" (by decide)⟩, hargs, hfile, ?_⟩
  rw [(hrun readFile args "" true "quit" 0 "sums" script hargs hfile).2.2]
  decide +kernel

end Calculator
