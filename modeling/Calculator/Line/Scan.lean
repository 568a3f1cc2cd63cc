import Calculator.Error
import Calculator.Expression
import Calculator.Line.Blank
import Calculator.Line.Lexeme
import Calculator.Number.Literal
import Calculator.Variables

/-!
# From a line to an expression

A line is read once, from left to right. `Scan` is what has to be known at a place of the line, and
`Scan.step` reads one lexeme.

* Digits add up to a number, which becomes a token when another lexeme or the end follows.
* An operator after an operand is binary. Anywhere else it has to be a sign: `-` turns the sign of
  the next number or variable, also across opening parentheses, and `+` does nothing.
* A multiplication stands between operands that follow each other without an operator.
* Groups that are open at the end of the line are closed there.
-/

namespace Calculator

/-- What has been read of a line. -/
structure Scan where
  /-- The tokens, the last one first. -/
  emitted : List Token := []
  /-- The value of the digits since the last other lexeme. -/
  literal : Option Nat := none
  /-- A minus sign waits for its operand. -/
  minus : Bool := false
  /-- The number of open groups. -/
  openGroups : Nat := 0
  /-- The number of operator characters in a row, an opening parenthesis before them included. -/
  run : Nat := 0

namespace Scan

/-- The longest run of operator characters. -/
def maxRun : Nat := 2

/-- Whether a multiplication is understood between two adjacent tokens. -/
def impliesProduct : Token → Token → Bool
  | .number _, .number _ => false
  | left, right => left.endsOperand && right.startsOperand

/-- Whether the last token ends an operand. -/
def afterOperand (s : Scan) : Bool := s.emitted.head?.any Token.endsOperand

/-- Adds a token, after a multiplication if one is understood. -/
def emit (s : Scan) (token : Token) : Scan :=
  match s.emitted with
  | last :: _ =>
    if impliesProduct last token then
      { s with emitted := token :: .operator .mul :: s.emitted }
    else
      { s with emitted := token :: s.emitted }
  | [] => { s with emitted := [token] }

/-- Ends a number: it becomes a token with its sign. -/
def endNumber (s : Scan) : Except SyntaxError Scan :=
  match s.literal with
  | none => .ok s
  | some value =>
    if Literal.IsFinite value then
      let number := Literal.toFloat value
      let signed := if s.minus then -number else number
      .ok ({ s with literal := none, minus := false }.emit (.number signed))
    else
      .error .literalTooLarge

/-- Writes the sign of a variable, as a multiplication by minus one. -/
def emitSign (s : Scan) : Scan :=
  if s.minus then
    ({ s with minus := false }.emit (.number (-1))).emit (.operator .mul)
  else
    s

/-- Reads a digit. -/
def readDigit (s : Scan) (digit : Fin 10) : Scan :=
  { s with literal := some (Literal.push (s.literal.getD 0) digit), run := 0 }

/-- Reads a letter, which has to be a variable with a value. -/
def readLetter (vars : Variables) (s : Scan) (name : Char) : Except SyntaxError Scan :=
  if vars.contains name then do
    let s ← s.endNumber
    .ok { s.emitSign.emit (.var name) with run := 0 }
  else
    .error (.unsupported name)

/-- Opens a group. A sign in front of it stays for the first operand inside. -/
def readOpenParen (s : Scan) : Except SyntaxError Scan := do
  let s ← s.endNumber
  .ok { s.emit .openParen with openGroups := s.openGroups + 1, run := 1 }

/-- Closes a group. -/
def readCloseParen (s : Scan) : Except SyntaxError Scan := do
  let s ← s.endNumber
  if s.openGroups = 0 then
    .error .unmatchedClose
  else
    match s.emitted with
    | .openParen :: _ => .error .emptyGroup
    | .operator _ :: _ | [] => .error .trailingOperator
    | _ => .ok { s.emit .closeParen with openGroups := s.openGroups - 1, run := 0 }

/-- Reads an operator character, which is binary after an operand and a sign elsewhere. -/
def readOperator (s : Scan) (op : Operator) : Except SyntaxError Scan := do
  let s ← s.endNumber
  let s := { s with run := s.run + 1 }
  if s.afterOperand then
    .ok (s.emit (.operator op))
  else if maxRun < s.run then
    .error .tooManyOperators
  else
    match op with
    | .sub => .ok { s with minus := true }
    | .add => .ok s
    | _ => .error (if s.emitted.isEmpty then .leadingOperator op else .tooManyOperators)

/-- Reads a lexeme. -/
def step (vars : Variables) (s : Scan) : Lexeme → Except SyntaxError Scan
  | .digit digit => .ok (s.readDigit digit)
  | .letter name => s.readLetter vars name
  | .operator op => s.readOperator op
  | .openParen => s.readOpenParen
  | .closeParen => s.readCloseParen

/-- Reads what stands at a place of the line. -/
def stepAt (vars : Variables) (s : Scan) (place : Lexeme.Occurrence) : Except SyntaxError Scan :=
  match place.content with
  | .ok lexeme => s.step vars lexeme
  | .error c => .error (.unsupported c)

/-- The expression at the end of a line. -/
def finish (s : Scan) : Except SyntaxError Expression := do
  let s ← s.endNumber
  if s.afterOperand then
    .ok ⟨s.emitted.reverse ++ List.replicate s.openGroups .closeParen⟩
  else
    .error .trailingOperator

end Scan

/-- The expression on a line. Letters have a meaning only as variables of the table. -/
def tokenize (vars : Variables) (line : String) : Except SyntaxError Expression :=
  if isBlank line then
    .error .empty
  else do
    let s ← (Lexeme.occurrences line).foldlM (Scan.stepAt vars) {}
    s.finish

end Calculator
