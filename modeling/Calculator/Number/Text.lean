import Calculator.Number.Shortest

/-!
# The text of a number

A number is written with the fewest digits that read back, always in positional notation: zeros
fill the places up to the point, a whole number has no point, and no exponent appears. Zero keeps
its sign.
-/

namespace Calculator

/-- The digits of a decimal, first digit first, without zeros at the end. -/
def Decimal.significantDigits (d : Decimal) : List Char :=
  ((Nat.toDigits 10 d.digits).reverse.dropWhile (· = '0')).reverse

/-- How many digits stand before the point; not positive if zeros follow the point. -/
def Decimal.point (d : Decimal) : Int := (Nat.toDigits 10 d.digits).length + d.exponent

/-- A positive decimal in positional notation. -/
def Decimal.text (d : Decimal) : String :=
  let digits := d.significantDigits
  let zeros (n : Nat) := List.replicate n '0'
  String.ofList <|
    if d.point ≤ 0 then
      ['0', '.'] ++ zeros (-d.point).toNat ++ digits
    else
      let whole := d.point.toNat
      if digits.length ≤ whole then
        digits ++ zeros (whole - digits.length)
      else
        digits.take whole ++ ['.'] ++ digits.drop whole

/-- The positive number with these exponent and fraction fields, the exponent field below its
largest value. -/
def Binary.ofFields (exponent fraction : Nat) : Binary :=
  if exponent = 0 then ⟨fraction, -1074, false⟩
  else ⟨Nat.pow 2 52 + fraction, exponent - 1075, fraction = 0 ∧ 1 < exponent⟩

/-- The text of a number. An undefined one is written without a sign. -/
def numberText (x : Float) : String :=
  let bits := x.toBits.toNat
  let exponent := bits / Nat.pow 2 52 % Nat.pow 2 11
  let fraction := bits % Nat.pow 2 52
  let sign := if bits / Nat.pow 2 63 = 1 then "-" else ""
  if exponent = 2047 then
    if fraction = 0 then sign ++ "inf" else "NaN"
  else if exponent = 0 ∧ fraction = 0 then
    sign ++ "0"
  else
    sign ++ (Binary.ofFields exponent fraction).shortest.text

end Calculator
