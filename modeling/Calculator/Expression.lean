import Calculator.Number.Text
import Calculator.Operator

/-!
# Expressions

An expression is a sequence of tokens. Its text is the texts of its tokens with a space between.
-/

namespace Calculator

/-- A unit of an expression. A sign in front of a number is part of it. -/
inductive Token where
  | number (value : Float)
  | operator (op : Operator)
  | openParen
  | closeParen
  /-- The value of a variable. -/
  | var (name : Char)
  deriving DecidableEq

namespace Token

/-- The text of a token. -/
def text : Token → String
  | number value => numberText value
  | operator op => op.symbol.toString
  | openParen => "("
  | closeParen => ")"
  | var name => name.toString

/-- Whether an operand can start here. -/
def startsOperand : Token → Bool
  | number _ | var _ | openParen => true
  | operator _ | closeParen => false

/-- Whether an operand can end here. -/
def endsOperand : Token → Bool
  | number _ | var _ | closeParen => true
  | operator _ | openParen => false

end Token

/-- A sequence of tokens. -/
structure Expression where
  tokens : List Token
  deriving DecidableEq

/-- The text of an expression. -/
def Expression.text (e : Expression) : String := " ".intercalate (e.tokens.map Token.text)

end Calculator
