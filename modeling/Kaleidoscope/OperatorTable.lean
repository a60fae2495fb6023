import Kaleidoscope.Dictionary
import Kaleidoscope.Number.Text

/-!
# Binary operators and how tightly they bind

A program may add binary operators of its own. Five are built in: code is generated for them
directly, and no definition can take them over.
-/

namespace Kaleidoscope

/-- A precedence outside the range that a definition may ask for. -/
structure PrecedenceError where
  value : Float

/-- How the error is reported. -/
def PrecedenceError.message (e : PrecedenceError) : String :=
  s!"invalid precedence {Number.text e.value}: must be in 1..100"

/-- The precedence of each binary operator. A higher one binds tighter. -/
structure OperatorTable where
  entries : Dictionary Char Nat

namespace OperatorTable

/-- The least precedence that a definition may ask for. -/
def least : Nat := 1

/-- The greatest precedence that a definition may ask for. -/
def greatest : Nat := 100

/-- The precedence of an operator whose definition does not ask for one. -/
def standard : Nat := 30

/-- The operators that are not called as functions. -/
def builtins : List (Char × Nat) := [('=', 2), ('<', 10), ('+', 20), ('-', 20), ('*', 40)]

/-- Is the operator built in? -/
def isBuiltin (symbol : Char) : Bool := builtins.any (·.1 = symbol)

/-- The table that every program starts with. -/
def seed : OperatorTable := ⟨⟨builtins⟩⟩

/-- The precedence of a symbol, if it is an operator. -/
def lookup (table : OperatorTable) (symbol : Char) : Option Nat := table.entries.lookup symbol

/-- Give a symbol a precedence in range. -/
def define (table : OperatorTable) (symbol : Char) (precedence : Nat) :
    Except PrecedenceError OperatorTable :=
  if least ≤ precedence ∧ precedence ≤ greatest then
    .ok ⟨table.entries.insert symbol precedence⟩
  else .error ⟨Float.ofNat precedence⟩

/-- Undo a definition that replaced `previous`. -/
def restore (table : OperatorTable) (symbol : Char) (previous : Option Nat) : OperatorTable :=
  ⟨table.entries.restore symbol previous⟩

/-- Does the table answer every look-up as the given one does? -/
def agrees (table other : OperatorTable) : Bool := table.entries.agrees other.entries

end OperatorTable

end Kaleidoscope
