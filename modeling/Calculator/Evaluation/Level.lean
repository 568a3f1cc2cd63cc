import Calculator.Evaluation.Arithmetic
import Calculator.Evaluation.Term

/-!
# One level of operators

The operators of one level apply from left to right. Each takes the number before it, which may be
the result of the operator before, and the number after it. All other terms stay as they are.
-/

namespace Calculator

/-- Applies the operators of one level. The terms on the left, the last one first, are done. An
operator that is the last term is left alone. -/
def applyLevelFrom (level : Precedence) (left : List Term) :
    List Term → Except EvalError (List Term)
  | [] => .ok left.reverse
  | [last] => .ok (last :: left).reverse
  | term :: next :: rest =>
    match term with
    | .operator op =>
      if op.precedence = level then
        match left, next with
        | .number x :: left, .number y => do
          let value ← op.apply x y
          applyLevelFrom level (.number value :: left) rest
        | _, _ => .error (.missingOperand op)
      else
        applyLevelFrom level (term :: left) (next :: rest)
    | _ => applyLevelFrom level (term :: left) (next :: rest)

/-- Applies the operators of one level, from left to right. -/
def applyLevel (level : Precedence) (terms : List Term) : Except EvalError (List Term) :=
  applyLevelFrom level [] terms

/-- Applies the operators of all levels, one level after the other. -/
def applyLevels (terms : List Term) : Except EvalError (List Term) :=
  Precedence.all.foldlM (fun terms level => applyLevel level terms) terms

end Calculator
