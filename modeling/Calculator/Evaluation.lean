import Calculator.Evaluation.Group
import Calculator.Evaluation.Level

/-!
# Evaluation

The value of a sequence of tokens: variables are replaced by their values, then groups by theirs,
then the operators apply level by level. What is left over has to be one number.

The nesting of groups is limited. The limit is spent level by level, so that a group nested deeper
than the limit is refused whatever it holds.
-/

namespace Calculator

/-- How deeply groups may nest unless another limit is given. -/
def defaultMaxDepth : Nat := 64

/-- The one number that is left over. -/
def theNumber : List Term → Except EvalError Float
  | [.number value] => .ok value
  | terms => .error (.leftover terms.length)

/-- The value of terms that may hold groups on fewer than `levels` levels. The limit is for the
report. -/
def valueOfTerms (limit : Nat) : (levels : Nat) → List Term → Except EvalError Float
  | 0, _ => .error (.tooDeep limit)
  | levels + 1, terms => do
    let flat ← replaceGroups (valueOfTerms limit levels) terms
    let left ← applyLevels flat
    theNumber left

/-- The value of tokens in which groups nest at most `limit` levels deep. -/
def evaluate (limit : Nat) (vars : Variables) (tokens : List Token) : Except EvalError Float := do
  let terms ← Term.ofTokens vars tokens
  valueOfTerms limit (limit + 1) terms

end Calculator
