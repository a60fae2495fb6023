import Kaleidoscope.Number.Text

/-!
# Values of registers
-/

namespace Kaleidoscope.Machine

/-- A register holds a number, or the truth value of a comparison. -/
inductive Value where
  | number (x : Float)
  | truth (b : Bool)

namespace Value

/-- The number, if it is one. -/
def number? : Value → Option Float
  | number x => some x
  | truth _ => none

/-- The truth value, if it is one. -/
def truth? : Value → Option Bool
  | number _ => none
  | truth b => some b

/-- The text of a value. -/
def text : Value → String
  | number x => Number.text x
  | truth true => "true"
  | truth false => "false"

end Value

end Kaleidoscope.Machine
