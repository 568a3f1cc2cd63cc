import Calculator.Operator

/-!
# Lexemes

The units of a line, one character each. A number is many lexemes, because spaces may stand between
its digits. Five characters stand for nothing and are skipped; every character that is neither
skipped nor a lexeme is reported on its own.
-/

namespace Calculator

/-- A unit of a line. -/
inductive Lexeme where
  | digit (value : Fin 10)
  /-- An ASCII letter. -/
  | letter (name : Char)
  | operator (op : Operator)
  | openParen
  | closeParen
  deriving DecidableEq

namespace Lexeme

/-- The characters that may stand anywhere on a line without a meaning. -/
def isSkipped (c : Char) : Bool :=
  c = ' ' || c = '\t' || c = '\r' || c = '\n' || c = '\x0c'

/-- The value of a digit character. -/
def digitValue (c : Char) : Fin 10 := Fin.ofNat 10 (c.toNat - '0'.toNat)

/-- The lexeme that a character writes. Digits and letters are those of ASCII. -/
def ofChar? (c : Char) : Option Lexeme :=
  if c.isDigit then some (.digit (digitValue c))
  else if c.isAlpha then some (.letter c)
  else if c = '(' then some .openParen
  else if c = ')' then some .closeParen
  else (Operator.ofSymbol? c).map .operator

/-- What stands at a place of a line. -/
structure Occurrence where
  /-- The lexeme, or the character that writes none. -/
  content : Except Char Lexeme
  /-- The first byte of the character in UTF-8. -/
  start : Nat
  /-- The first byte after the character. -/
  stop : Nat

/-- The occurrences in a text whose first character has its first byte at `start`. -/
def occurrencesFrom (start : Nat) : List Char → List Occurrence
  | [] => []
  | c :: cs =>
    let stop := start + c.utf8Size
    if isSkipped c then
      occurrencesFrom stop cs
    else
      let content := match ofChar? c with
        | some lexeme => .ok lexeme
        | none => .error c
      ⟨content, start, stop⟩ :: occurrencesFrom stop cs

/-- The occurrences in a line. -/
def occurrences (line : String) : List Occurrence := occurrencesFrom 0 line.toList

end Lexeme

end Calculator
