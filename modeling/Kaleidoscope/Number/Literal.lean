/-!
# Number literals

A literal is a run of digits and points that holds at least one digit and at most one point. Its
value is the decimal that it spells, rounded to the nearest number; a run too large for any
number stands for infinity.
-/

namespace Kaleidoscope.Number

/-- The characters that a number literal is made of. -/
def isLiteralChar (c : Char) : Bool := c.isDigit || c = '.'

/-- The natural number spelled by decimal digits. -/
def ofDigits (digits : List Char) : Nat :=
  digits.foldl (fun n c => 10 * n + (c.toNat - '0'.toNat)) 0

/-- The value of a run of digits and points, if it is a literal. -/
def ofLiteral? (run : List Char) : Option Float :=
  let digits := run.filter Char.isDigit
  let places := (run.dropWhile (· ≠ '.')).drop 1
  if digits = [] ∨ '.' ∈ places then none
  else some (Float.ofScientific (ofDigits digits) true places.length)

end Kaleidoscope.Number
