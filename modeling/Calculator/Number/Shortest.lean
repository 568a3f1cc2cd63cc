/-!
# Shortest decimals

The fewest decimal digits that read back as a given binary number. The search is exact: the number,
the ends of the interval of reals that round to it and every candidate are natural numbers over one
denominator.

* `Binary.shortest`: the digits. Among decimals of the fewest digits the nearest is taken, and of
  two equally near ones the larger.
-/

namespace Calculator

/-- The positive binary number `significand * 2 ^ exponent`. The flag `narrow` tells that its lower
neighbour is only half as far away as the upper one, as below a power of two. -/
structure Binary where
  significand : Nat
  exponent : Int
  narrow : Bool
  deriving DecidableEq

/-- The decimal `digits * 10 ^ exponent`. -/
structure Decimal where
  digits : Nat
  exponent : Int
  deriving DecidableEq

namespace Binary

/-- Enough digits to tell any two binary64 numbers apart. -/
def maxDigits : Nat := 17

/-- A binary number among the multiples of a power of ten, all in one unit that makes them natural
numbers. -/
structure Grid where
  /-- The power of ten. -/
  step : Nat
  /-- The lower end of the reals that round to the number. -/
  low : Nat
  /-- The number. -/
  value : Nat
  /-- The upper end of the reals that round to the number. -/
  high : Nat
  /-- Whether the ends round to the number too. -/
  closed : Bool

/-- The number among the multiples of `10 ^ exponent`. The reals that round to it reach half of the
way to each neighbour, and an end rounds to whichever of the two has the even significand. -/
def grid (b : Binary) (exponent : Int) : Grid :=
  let scale := Nat.pow 2 (b.exponent - 2).toNat * Nat.pow 10 (-exponent).toNat
  let middle := 4 * b.significand
  { step := Nat.pow 2 (2 - b.exponent).toNat * Nat.pow 10 exponent.toNat
    low := (middle - if b.narrow then 1 else 2) * scale
    value := middle * scale
    high := (middle + 2) * scale
    closed := b.significand % 2 = 0 }

/-- Whether the decimal with these digits reads back as the number. -/
def Grid.readsBack (g : Grid) (digits : Nat) : Bool :=
  if g.closed then g.low ≤ digits * g.step ∧ digits * g.step ≤ g.high
  else g.low < digits * g.step ∧ digits * g.step < g.high

/-- The digits next below and next above the number, if they read back; the nearer of the two, and
the upper one at equal distance. -/
def Grid.nearest? (g : Grid) : Option Nat :=
  let below := g.value / g.step
  let above := below + 1
  match g.readsBack below, g.readsBack above with
  | true, true => if 2 * (g.value % g.step) < g.step then some below else some above
  | true, false => some below
  | false, true => some above
  | false, false => none

/-- The number of decimal digits of `n`, none for zero. -/
def digitCount (n : Nat) : Nat := if n = 0 then 0 else (Nat.toDigits 10 n).length

/-- The exponent `k` with `10 ^ (k - 1) ≤ b < 10 ^ k`. -/
def magnitude (b : Binary) : Int :=
  let numerator := b.significand * Nat.pow 2 b.exponent.toNat
  let denominator := Nat.pow 2 (-b.exponent).toNat
  if denominator ≤ numerator then
    digitCount (numerator / denominator)
  else
    1 - (digitCount ((denominator - 1) / numerator) : Int)

/-- All digits of the number. -/
def exact (b : Binary) : Decimal :=
  if 0 ≤ b.exponent then ⟨b.significand * Nat.pow 2 b.exponent.toNat, 0⟩
  else ⟨b.significand * Nat.pow 5 (-b.exponent).toNat, b.exponent⟩

/-- The fewest digits that read back as the number, or all its digits if `maxDigits` are not enough
to read it back. -/
def shortest (b : Binary) : Decimal :=
  let top := b.magnitude
  let candidate (places : Nat) : Option Decimal :=
    let exponent := top - (places + 1 : Nat)
    (b.grid exponent).nearest?.map (⟨·, exponent⟩)
  ((List.range maxDigits).findSome? candidate).getD b.exact

end Binary

end Calculator
