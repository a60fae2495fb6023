import Kaleidoscope.Number.Shortest

/-!
# The text of a number

A number is written with the fewest digits that read back to it, always positionally: there is
no exponent, and a whole number has no point. Zero keeps its sign, infinity has one, and the sign
of a value that is not a number is not shown.
-/

namespace Kaleidoscope.Number

/-- The digits of a decimal with the point at its place. -/
def Decimal.positional (d : Decimal) : List Char :=
  let digits := Nat.toDigits 10 d.digits
  let places := (-d.exponent).toNat
  if places = 0 then digits ++ List.replicate d.exponent.toNat '0'
  else if places < digits.length then
    digits.take (digits.length - places) ++ '.' :: digits.drop (digits.length - places)
  else '0' :: '.' :: (List.replicate (places - digits.length) '0' ++ digits)

/-- The text of a finite magnitude. -/
def Binary.positional (x : Binary) : List Char :=
  if x.mantissa = 0 then ['0'] else x.shortest.positional

/-- The characters of a number's text. -/
def characters (x : Float) : List Char :=
  let sign := if isNegative x then ['-'] else []
  match magnitude x with
  | .nan => ['N', 'a', 'N']
  | .infinite => sign ++ ['i', 'n', 'f']
  | .finite value => sign ++ value.positional

/-- The text of a number. -/
def text (x : Float) : String := String.ofList (characters x)

end Kaleidoscope.Number
