import Kaleidoscope.Ssa

/-!
# Programs

A program holds functions by name, in the order in which the names first arrived. Every operation
looks for the first function of a name; the operations keep names distinct, so it is the only one.
-/

namespace Kaleidoscope.Ssa

/-- The functions of a program. -/
structure Program where
  functions : List Function

namespace Program

/-- The program without functions. -/
def empty : Program := ⟨[]⟩

/-- The function of a name. -/
def find? (p : Program) (name : String) : Option Function := p.functions.find? (·.name = name)

/-- Put `f` in the place of the function of the same name, or at the end. -/
def defineIn (f : Function) : List Function → List Function
  | [] => [f]
  | g :: rest => if g.name = f.name then f :: rest else g :: defineIn f rest

/-- Remove the function of a name. -/
def eraseIn (name : String) : List Function → List Function
  | [] => []
  | g :: rest => if g.name = name then rest else g :: eraseIn name rest

/-- Make sure that there is a function of the given name. One that is there stays as it is. -/
def declare (p : Program) (name : String) (parameters : List String) : Program :=
  match p.find? name with
  | some _ => p
  | none => ⟨p.functions ++ [⟨name, parameters, none⟩]⟩

/-- Add a function, in place of one of the same name if there is one. -/
def define (p : Program) (f : Function) : Program := ⟨defineIn f p.functions⟩

/-- Remove a function. The others keep their order. -/
def erase (p : Program) (name : String) : Program := ⟨eraseIn name p.functions⟩

end Program

end Kaleidoscope.Ssa
