import Calculator.Number.Text
import Calculator.Operator

/-!
# Errors

The reasons for which a line has no value, and their texts.
-/

namespace Calculator

/-- Why a text is not an expression. -/
inductive SyntaxError where
  /-- The text is blank. -/
  | empty
  /-- An operator stands where only an operand or one more sign can. -/
  | tooManyOperators
  /-- The text starts with an operator that is not a sign. -/
  | leadingOperator (op : Operator)
  /-- The text or a group of it ends with an operator. -/
  | trailingOperator
  /-- A character that has no meaning, or a letter without a value. -/
  | unsupported (c : Char)
  /-- A group is closed that was never opened. -/
  | unmatchedClose
  | emptyGroup
  /-- A literal has no finite value. -/
  | literalTooLarge
  deriving DecidableEq

/-- Why a text is not an assignment. -/
inductive AssignmentError where
  | noEquals
  | manyEquals
  /-- No letter stands before the equals sign. -/
  | noName
  /-- What follows the equals sign is not an expression. -/
  | expression (error : SyntaxError)
  deriving DecidableEq

/-- Why tokens have no value. An expression that was read from a line can only meet the first
four. -/
inductive EvalError where
  | divisionByZero
  /-- A power of finite numbers is infinite. -/
  | overflow (base exponent : Float)
  /-- A power of finite numbers is undefined. -/
  | noRealResult (base exponent : Float)
  /-- Groups are nested deeper than the limit. -/
  | tooDeep (limit : Nat)
  | unbound (name : Char)
  /-- An operator has no number on one of its sides. -/
  | missingOperand (op : Operator)
  | unmatchedParen
  /-- The terms that are left over are not one number. -/
  | leftover (remaining : Nat)
  deriving DecidableEq

/-- Why a line has no value. -/
inductive LineError where
  | expression (error : SyntaxError)
  | assignment (error : AssignmentError)
  | evaluation (error : EvalError)
  deriving DecidableEq

/-- The text of a syntax error. -/
def SyntaxError.message : SyntaxError → String
  | empty => "Empty expression"
  | tooManyOperators => "Too many operators in a row"
  | leadingOperator op => s!"Cannot start with '{op.symbol}'"
  | trailingOperator => "Cannot end with operators"
  | unsupported c => s!"Unsupported operation: '{c}'"
  | unmatchedClose => "Cannot have more closing than opening parentheses"
  | emptyGroup => "Parentheses cannot be empty"
  | literalTooLarge => "Literal is too large"

/-- The text of an assignment error. -/
def AssignmentError.message : AssignmentError → String
  | noEquals => "Expected \"=\""
  | manyEquals => "Only 1 \"=\" sign allowed"
  | noName => "Missing variable name before \"=\""
  | expression error => error.message

/-- The text of an evaluation error. -/
def EvalError.message : EvalError → String
  | divisionByZero => "Division by zero"
  | overflow base exponent =>
    s!"Numeric overflow while computing {numberText base} ^ {numberText exponent}"
  | noRealResult base exponent =>
    s!"{numberText base} ^ {numberText exponent} has no real result"
  | tooDeep limit => s!"Parentheses nested deeper than {limit} levels"
  | unbound name => s!"Internal error: unknown variable '{name}'"
  | missingOperand op => s!"Internal error: operator '{op.symbol}' is missing an operand"
  | unmatchedParen => "Internal error: unbalanced parentheses"
  | leftover remaining =>
    s!"Internal error: expression reduced to {remaining} terms instead of one"

/-- The text of a line's error. -/
def LineError.message : LineError → String
  | expression error => s!"Invalid expression: {error.message}"
  | assignment error => s!"Invalid assignment: {error.message}"
  | evaluation error => error.message

end Calculator
