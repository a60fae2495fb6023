import Kaleidoscope.Dictionary
import Kaleidoscope.Ssa

/-!
# Variables in scope

Only the slot that a name stands for at the moment is looked up. A binding records what it hides,
and leaving a scope takes its bindings back, the newest first, so a name that a scope binds twice
ends up as it was before the scope.
-/

namespace Kaleidoscope

/-- The variables in scope and what is needed to leave the open scopes. -/
structure Scope where
  /-- What each name stands for. -/
  active : Dictionary String Ssa.SlotId
  /-- What each binding hid, the newest first. -/
  hidden : List (String × Option Ssa.SlotId)
  /-- How many bindings there were when each open scope was entered, the innermost first. -/
  marks : List Nat

namespace Scope

/-- No variables and no open scope. -/
def empty : Scope := ⟨.empty, [], []⟩

/-- Open a scope. -/
def enter (s : Scope) : Scope := { s with marks := s.hidden.length :: s.marks }

/-- Let a name stand for a slot until the innermost scope is left. -/
def bind (s : Scope) (name : String) (slot : Ssa.SlotId) : Scope :=
  { s with active := s.active.insert name slot, hidden := (name, s.active.lookup name) :: s.hidden }

/-- Take back bindings, the newest first, until `mark` of them are left. -/
def unwind (mark : Nat) (active : Dictionary String Ssa.SlotId) :
    List (String × Option Ssa.SlotId) → Dictionary String Ssa.SlotId × List (String × Option Ssa.SlotId)
  | [] => (active, [])
  | (name, slot) :: older =>
    if older.length < mark then (active, (name, slot) :: older)
    else unwind mark (active.restore name slot) older

/-- Leave the innermost scope. Without an open scope nothing changes. -/
def exit (s : Scope) : Scope :=
  match s.marks with
  | [] => s
  | mark :: outer =>
    let (active, hidden) := unwind mark s.active s.hidden
    ⟨active, hidden, outer⟩

/-- The slot that a name stands for. -/
def lookup (s : Scope) (name : String) : Option Ssa.SlotId := s.active.lookup name

/-- Is no variable in scope? -/
def isEmpty (s : Scope) : Bool := s.active.entries.isEmpty && s.hidden.isEmpty

end Scope

end Kaleidoscope
