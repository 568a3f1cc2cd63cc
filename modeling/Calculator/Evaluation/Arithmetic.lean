import Calculator.Error

/-!
# Arithmetic

What an operator makes of two numbers. A zero divisor is refused, and so is a power of finite
numbers that is infinite or undefined. All other results are those of binary64 arithmetic,
infinities and undefined numbers included.
-/

namespace Calculator

/-- The power `base ^ exponent`. A negative power of zero is a division by zero. -/
def power (base exponent : Float) : Except EvalError Float :=
  if base == 0 && exponent < 0 then
    .error .divisionByZero
  else
    let value := Float.pow base exponent
    if base.isFinite && exponent.isFinite then
      if value.isNaN then .error (.noRealResult base exponent)
      else if value.isInf then .error (.overflow base exponent)
      else .ok value
    else
      .ok value

/-- The quotient of two numbers. Both zeros are refused as divisors. -/
def quotient (left right : Float) : Except EvalError Float :=
  if right == 0 then .error .divisionByZero else .ok (left / right)

/-- The result of an operator. -/
def Operator.apply : Operator → Float → Float → Except EvalError Float
  | add, left, right => .ok (left + right)
  | sub, left, right => .ok (left - right)
  | mul, left, right => .ok (left * right)
  | div, left, right => quotient left right
  | pow, left, right => power left right

end Calculator
