import Kaleidoscope.Number.Text

/-!
# Native functions

A native function computes a number from its arguments and may write to the output. A session
knows two of them, which write a character and a number.
-/

namespace Kaleidoscope.Machine

/-- A function that is implemented outside the program. -/
structure Native where
  arity : Nat
  result : List Float → Float
  output : List Float → String

namespace Native

/-- The code point that a number stands for: its whole part, zero for what is below zero or not a
number, and for what is too large a code point that does not exist. -/
def codePoint (x : Float) : Nat :=
  match Number.magnitude x with
  | .nan => 0
  | .infinite => if Number.isNegative x then 0 else 0x110000
  | .finite value => if Number.isNegative x then 0 else value.floor

/-- The character of a code point. The replacement character stands for one without character. -/
def characterOf (n : Nat) : Char := if n.isValidChar then Char.ofNat n else '\uFFFD'

/-- Write the character with the argument's code point. -/
def putchard : Native where
  arity := 1
  result _ := 0
  output arguments := String.singleton (characterOf (codePoint (arguments.headD 0)))

/-- Write the argument on a line of its own. -/
def printd : Native where
  arity := 1
  result _ := 0
  output arguments := Number.text (arguments.headD 0) ++ "\n"

/-- The native functions that every session knows. -/
def builtins : List (String × Native) := [("putchard", putchard), ("printd", printd)]

end Native

end Kaleidoscope.Machine
