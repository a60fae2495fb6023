/-!
# What the bits of a number stand for

Numbers are 64-bit binary floating-point values. Apart from its sign, a finite one is a natural
number scaled by a power of two, and everything that has to be exact is computed on that pair:
the digits of its text, its whole part, and comparisons with small naturals.
-/

namespace Kaleidoscope.Number

/-- The magnitude `mantissa * 2 ^ exponent`. -/
structure Binary where
  mantissa : Nat
  exponent : Int
  /-- The number below is only half as far away as the number above. -/
  narrowBelow : Bool

/-- A number without its sign. -/
inductive Magnitude where
  | nan
  | infinite
  | finite (value : Binary)

/-- A fraction of natural numbers, not necessarily in lowest terms. -/
structure Ratio where
  numerator : Nat
  denominator : Nat

namespace Ratio

/-- The product of `n` and a power of `base`, which may be negative. -/
def scaled (base n : Nat) (power : Int) : Ratio :=
  ⟨n * Nat.pow base power.toNat, Nat.pow base (-power).toNat⟩

/-- Comparison by cross multiplication. -/
def le (a b : Ratio) : Bool := a.numerator * b.denominator ≤ b.numerator * a.denominator

/-- Strict comparison by cross multiplication. -/
def lt (a b : Ratio) : Bool := a.numerator * b.denominator < b.numerator * a.denominator

/-- The largest natural number that is not above the fraction. -/
def floor (a : Ratio) : Nat := a.numerator / a.denominator

end Ratio

/-- Is the sign bit set? Zero and infinity have a sign too. -/
def isNegative (x : Float) : Bool := x.toBits.toNat.testBit 63

/-- The number of values between two powers of two. -/
def binade : Nat := Nat.pow 2 52

/-- Read the exponent field and the fraction field. -/
def magnitude (x : Float) : Magnitude :=
  let field : Nat := x.toBits.toNat / binade % 2048
  let fraction : Nat := x.toBits.toNat % binade
  if field = 2047 then
    if fraction = 0 then .infinite else .nan
  else if field = 0 then
    .finite ⟨fraction, -1074, false⟩
  else
    .finite ⟨binade + fraction, (field : Int) - 1075, fraction = 0 && field ≠ 1⟩

namespace Binary

/-- The exact value. -/
def ratio (x : Binary) : Ratio := .scaled 2 x.mantissa x.exponent

/-- The whole part. -/
def floor (x : Binary) : Nat := x.ratio.floor

/-- Is the value at most `bound`? -/
def atMost (x : Binary) (bound : Nat) : Bool := x.ratio.le ⟨bound, 1⟩

/-- Is the value at least `bound`? -/
def atLeast (x : Binary) (bound : Nat) : Bool := Ratio.le ⟨bound, 1⟩ x.ratio

end Binary

end Kaleidoscope.Number
