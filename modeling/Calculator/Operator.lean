/-!
# Operators

The five binary operators and the levels at which they bind.
-/

namespace Calculator

/-- The levels of binding, from the tightest. Operators of one level apply from left to right. -/
inductive Precedence where
  | power
  | product
  | sum
  deriving DecidableEq

/-- All levels, in the order in which they apply. -/
def Precedence.all : List Precedence := [.power, .product, .sum]

/-- The place of a level among all levels. -/
def Precedence.index (p : Precedence) : Nat := Precedence.all.idxOf p

/-- A binary operator. -/
inductive Operator where
  | add
  | sub
  | mul
  | div
  | pow
  deriving DecidableEq

namespace Operator

/-- The character that an operator is written as. -/
def symbol : Operator → Char
  | add => '+'
  | sub => '-'
  | mul => '*'
  | div => '/'
  | pow => '^'

/-- The operator that a character writes. -/
def ofSymbol? : Char → Option Operator
  | '+' => some add
  | '-' => some sub
  | '*' => some mul
  | '/' => some div
  | '^' => some pow
  | _ => none

/-- The level of an operator. -/
def precedence : Operator → Precedence
  | pow => .power
  | mul | div => .product
  | add | sub => .sum

theorem ofSymbol?_symbol (op : Operator) : ofSymbol? op.symbol = some op := by
  cases op <;> rfl

theorem symbol_of_ofSymbol? {c : Char} {op : Operator} (h : ofSymbol? c = some op) :
    op.symbol = c := by
  unfold ofSymbol? at h
  split at h <;> cases h <;> rfl

/-- Powers come before products and quotients, and these before sums and differences. -/
theorem index_lt_index_iff {op op' : Operator} :
    op.precedence.index < op'.precedence.index ↔
      op = pow ∧ op' ≠ pow ∨ (op = mul ∨ op = div) ∧ (op' = add ∨ op' = sub) := by
  cases op <;> cases op' <;> decide

end Operator

end Calculator
