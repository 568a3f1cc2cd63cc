import Calculator.Evaluation.Term

/-!
# Groups

A group is what stands between an opening parenthesis and its closing one. The outermost groups of
a sequence are replaced by their values, one after the other, as soon as each is closed.
-/

namespace Calculator

/-- Replaces the outermost groups by their values, where `value` gives the value of the terms
inside. At depth zero no group is open; at any other depth `inside`, its last term first, is what
has been read of the outermost open group. -/
def replaceGroupsFrom (value : List Term → Except EvalError Float) :
    (depth : Nat) → (inside : List Term) → List Term → Except EvalError (List Term)
  | 0, _, [] => .ok []
  | _ + 1, _, [] => .error .unmatchedParen
  | 0, _, term :: rest =>
    match term with
    | .openParen => replaceGroupsFrom value 1 [] rest
    | .closeParen => .error .unmatchedParen
    | _ => do
      let rest ← replaceGroupsFrom value 0 [] rest
      .ok (term :: rest)
  | depth + 1, inside, term :: rest =>
    match term, depth with
    | .openParen, _ => replaceGroupsFrom value (depth + 2) (term :: inside) rest
    | .closeParen, 0 => do
      let x ← value inside.reverse
      let rest ← replaceGroupsFrom value 0 [] rest
      .ok (.number x :: rest)
    | .closeParen, depth + 1 => replaceGroupsFrom value (depth + 1) (term :: inside) rest
    | _, _ => replaceGroupsFrom value (depth + 1) (term :: inside) rest

/-- Replaces the outermost groups by their values. -/
def replaceGroups (value : List Term → Except EvalError Float) (terms : List Term) :
    Except EvalError (List Term) :=
  replaceGroupsFrom value 0 [] terms

end Calculator
