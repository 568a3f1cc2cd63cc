/-!
# Blank lines

A line is blank if it holds nothing but white space, the Unicode property of that name. This set is
larger than the set of characters that a line may hold between its lexemes.
-/

namespace Calculator

/-- The white space of Unicode, as ranges of code points. -/
def whiteSpace : List (Nat × Nat) :=
  [(0x9, 0xD), (0x20, 0x20), (0x85, 0x85), (0xA0, 0xA0), (0x1680, 0x1680), (0x2000, 0x200A),
    (0x2028, 0x2029), (0x202F, 0x202F), (0x205F, 0x205F), (0x3000, 0x3000)]

/-- Whether a character is white space. -/
def isWhiteSpace (c : Char) : Bool :=
  whiteSpace.any fun (first, last) => first ≤ c.toNat && c.toNat ≤ last

/-- Whether a line holds white space only. -/
def isBlank (line : String) : Bool := line.toList.all isWhiteSpace

end Calculator
