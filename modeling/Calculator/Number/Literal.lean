/-!
# Number literals

A literal is read one digit at a time. After each digit the value is rounded to the precision of a
binary64 number, so a long literal may differ from the number nearest to all of its digits. The
value is a natural number of at most 53 significant bits, and `toFloat` is exact on it as long as
it is finite.

* `round_of_le`, `push_of_le`: nothing is rounded up to `2 ^ 53`.
-/

namespace Calculator.Literal

/-- The significant bits of a binary64 number. -/
def precision : Nat := 53

/-- The number of low bits of `n` that the precision has no room for. -/
def excess (n : Nat) : Nat := n.log2 + 1 - precision

/-- `n` rounded to the precision. A value halfway between two neighbours goes to the one whose last
bit is even. -/
def round (n : Nat) : Nat :=
  let unit := Nat.pow 2 (excess n)
  let quotient := n / unit
  let remainder := n % unit
  if unit < 2 * remainder ∨ (2 * remainder = unit ∧ quotient % 2 = 1) then
    (quotient + 1) * unit
  else
    quotient * unit

/-- The value of a literal after one more digit. -/
def push (value : Nat) (digit : Fin 10) : Nat := round (10 * value + digit)

/-- The value of a run of digits. -/
def ofDigits (digits : List (Fin 10)) : Nat := digits.foldl push 0

/-- A value is finite if it lies below the powers of two that a binary64 number can reach. -/
def IsFinite (value : Nat) : Prop := value < Nat.pow 2 1024

instance (value : Nat) : Decidable (IsFinite value) := Nat.decLt _ _

/-- The number that a finite value denotes. -/
def toFloat (value : Nat) : Float := Float.ofNat value

theorem excess_of_lt {n : Nat} (h : n < Nat.pow 2 53) : excess n = 0 := by
  by_cases h0 : n = 0
  · subst h0; rfl
  · have := (Nat.log2_lt h0).2 h
    simp only [excess, precision]
    omega

theorem round_of_lt {n : Nat} (h : n < Nat.pow 2 53) : round n = n := by
  simp [round, excess_of_lt h, Nat.mod_one]

theorem round_of_le {n : Nat} (h : n ≤ Nat.pow 2 53) : round n = n := by
  rcases Nat.lt_or_eq_of_le h with hlt | rfl
  · exact round_of_lt hlt
  · decide +kernel

theorem push_of_le {n : Nat} {d : Fin 10} (h : 10 * n + d ≤ Nat.pow 2 53) :
    push n d = 10 * n + d :=
  round_of_le h

end Calculator.Literal
