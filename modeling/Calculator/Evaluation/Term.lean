import Calculator.Error
import Calculator.Expression
import Calculator.Variables

/-!
# Terms

Tokens in which every variable has been replaced by its value.
-/

namespace Calculator

/-- A token that is not a variable. -/
inductive Term where
  | number (value : Float)
  | operator (op : Operator)
  | openParen
  | closeParen
  deriving DecidableEq

namespace Term

/-- The term of a token, if it is a variable then the number that the table has for it. -/
def ofToken (vars : Variables) : Token → Except EvalError Term
  | .number value => .ok (.number value)
  | .operator op => .ok (.operator op)
  | .openParen => .ok .openParen
  | .closeParen => .ok .closeParen
  | .var name =>
    match vars.get? name with
    | some value => .ok (.number value)
    | none => .error (.unbound name)

/-- The terms of a sequence of tokens. -/
def ofTokens (vars : Variables) (tokens : List Token) : Except EvalError (List Term) :=
  tokens.mapM (ofToken vars)

end Term

end Calculator
