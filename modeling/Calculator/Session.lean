import Calculator.Evaluation
import Calculator.Line.Assignment

/-!
# Sessions

A session answers lines one after the other and keeps the variables between them. A line with an
equals sign is an assignment, a blank line has no answer, and any other line is an expression. Only
an assignment that succeeds changes the session.
-/

namespace Calculator

/-- What a line that is neither blank nor refused brings about. -/
inductive Outcome where
  /-- The value of an expression. -/
  | value (value : Float)
  /-- A variable has a new value. -/
  | assigned (name : Char) (value : Float)
  deriving DecidableEq

namespace Outcome

/-- The number that was computed. -/
def number : Outcome → Float
  | value x | assigned _ x => x

/-- The text of an outcome. -/
def text : Outcome → String
  | value x => s!"={numberText x}"
  | assigned name x => s!"{name} = {numberText x}"

end Outcome

/-- The answer to a line; a blank line has none. -/
abbrev Answer := Except LineError (Option Outcome)

/-- The variables of a session, and how deeply groups may nest on its lines. -/
structure Session where
  vars : Variables := ∅
  maxDepth : Nat := defaultMaxDepth

namespace Session

/-- The value of an expression line. -/
def evaluate (s : Session) (line : String) : Except LineError Float :=
  match tokenize s.vars line with
  | .error e => .error (.expression e)
  | .ok expression =>
    match Calculator.evaluate s.maxDepth s.vars expression.tokens with
    | .error e => .error (.evaluation e)
    | .ok value => .ok value

/-- Answers an assignment line. The variable is set once its value is known. -/
def assign (s : Session) (line : String) : Except LineError Outcome × Session :=
  match Assignment.ofLine s.vars line with
  | .error e => (.error (.assignment e), s)
  | .ok ⟨name, expression⟩ =>
    match Calculator.evaluate s.maxDepth s.vars expression.tokens with
    | .error e => (.error (.evaluation e), s)
    | .ok value => (.ok (.assigned name value), { s with vars := s.vars.set name value })

/-- Answers a line. -/
def answer (s : Session) (line : String) : Answer × Session :=
  if isBlank line then
    (.ok none, s)
  else if line.toList.contains '=' then
    let (outcome, s) := s.assign line
    (outcome.map some, s)
  else
    ((s.evaluate line).map (some ∘ .value), s)

/-- Answers lines one after the other. -/
def answerAll (s : Session) : List String → List Answer × Session
  | [] => ([], s)
  | line :: lines =>
    let (answer, s) := s.answer line
    let (answers, s) := s.answerAll lines
    (answer :: answers, s)

end Session

/-- The value of an expression line without variables, with the default limit. -/
def calculate (line : String) : Except LineError Float :=
  match tokenize ∅ line with
  | .error e => .error (.expression e)
  | .ok expression =>
    match evaluate defaultMaxDepth ∅ expression.tokens with
    | .error e => .error (.evaluation e)
    | .ok value => .ok value

end Calculator
