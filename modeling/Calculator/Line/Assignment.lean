import Calculator.Line.Scan

/-!
# Assignments

A line with one equals sign assigns the value of what follows the sign to the variable whose name
stands before it.
-/

namespace Calculator

/-- A variable and the expression of its new value. -/
structure Assignment where
  name : Char
  expression : Expression
  deriving DecidableEq

namespace Assignment

/-- The name in front of an equals sign: the first ASCII letter. All else there is skipped. -/
def name? (target : List Char) : Option Char := target.find? Char.isAlpha

/-- The assignment on a line. -/
def ofLine (vars : Variables) (line : String) : Except AssignmentError Assignment :=
  match line.toList.dropWhile (· ≠ '=') with
  | [] => .error .noEquals
  | _ :: source =>
    if source.contains '=' then
      .error .manyEquals
    else
      match name? (line.toList.takeWhile (· ≠ '=')) with
      | none => .error .noName
      | some name =>
        match tokenize vars (String.ofList source) with
        | .ok expression => .ok ⟨name, expression⟩
        | .error e => .error (.expression e)

end Assignment

end Calculator
