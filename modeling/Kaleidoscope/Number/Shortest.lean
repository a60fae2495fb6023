import Kaleidoscope.Number.Magnitude

/-!
# The shortest decimal of a number

Of all decimals that round to a given number, the one with the fewest digits is chosen, and of
those the nearest. The reals that round to `m * 2 ^ q` form an interval that reaches halfway to
either neighbour; its ends belong to it exactly when `m` is even, because halfway cases round to
the even neighbour. For one digit, two digits and so on the search tests the two points of the
decimal grid on either side of the value: if any point of a grid lies in the interval, one of
these does.
-/

namespace Kaleidoscope.Number

/-- The value `digits * 10 ^ exponent`. -/
structure Decimal where
  digits : Nat
  exponent : Int
deriving DecidableEq

namespace Decimal

/-- The exact value. -/
def ratio (d : Decimal) : Ratio := .scaled 10 d.digits d.exponent

/-- Move the trailing zeros of the digits into the exponent. -/
def strip (digits : Nat) (exponent : Int) : Decimal :=
  if 0 < digits ∧ digits % 10 = 0 then strip (digits / 10) (exponent + 1) else ⟨digits, exponent⟩
termination_by digits
decreasing_by omega

end Decimal

/-- The number of decimal digits of `n`, at least one. -/
def digitCount (n : Nat) : Nat := (Nat.toDigits 10 n).length

namespace Binary

/-- Halfway to the number below, counted in quarters of the last binary place. -/
def lowerEnd (x : Binary) : Ratio :=
  .scaled 2 (if x.narrowBelow then 4 * x.mantissa - 1 else 4 * x.mantissa - 2) (x.exponent - 2)

/-- Halfway to the number above, counted in quarters of the last binary place. -/
def upperEnd (x : Binary) : Ratio := .scaled 2 (4 * x.mantissa + 2) (x.exponent - 2)

/-- Does the decimal round to `x`? -/
def readsBack (x : Binary) (d : Decimal) : Bool :=
  if x.mantissa % 2 = 0 then x.lowerEnd.le d.ratio && d.ratio.le x.upperEnd
  else x.lowerEnd.lt d.ratio && d.ratio.lt x.upperEnd

/-- The least `k` such that a positive value is below `10 ^ k`. -/
def scale (x : Binary) : Int :=
  let r := x.ratio
  if r.denominator ≤ r.numerator then digitCount r.floor
  else 1 - (digitCount ((r.denominator - 1) / r.numerator) : Int)

/-- The point of the grid `10 ^ exponent` nearest to `x` among those that round to `x`. Of two
equally near points the upper one is taken. -/
def onGrid (x : Binary) (exponent : Int) : Option Decimal :=
  let r := x.ratio
  let unit := Ratio.scaled 10 1 exponent
  let lower := r.numerator * unit.denominator / (r.denominator * unit.numerator)
  match x.readsBack ⟨lower, exponent⟩, x.readsBack ⟨lower + 1, exponent⟩ with
  | true, true =>
    if (Decimal.mk (2 * lower + 1) exponent).ratio.le (.scaled 2 (2 * x.mantissa) x.exponent) then
      some ⟨lower + 1, exponent⟩
    else some ⟨lower, exponent⟩
  | true, false => some ⟨lower, exponent⟩
  | false, true => some ⟨lower + 1, exponent⟩
  | false, false => none

/-- All digits of the value. -/
def exact (x : Binary) : Decimal :=
  ⟨x.mantissa * Nat.pow 2 x.exponent.toNat * Nat.pow 5 (-x.exponent).toNat, min x.exponent 0⟩

/-- The shortest decimal that rounds to a positive value, without trailing zeros. Seventeen
digits tell any two numbers apart, so the search stops there. -/
def shortest (x : Binary) : Decimal :=
  let found := (List.range 17).findSome? fun n => x.onGrid (x.scale - (n + 1 : Nat))
  let chosen := found.getD x.exact
  .strip chosen.digits chosen.exponent

end Binary

end Kaleidoscope.Number
