/-!
# Functions in single-assignment form

A body is a list of blocks. Every value has one instruction that computes it, and mutable variables
live in slots that are read and written explicitly. Numbers and the truth values of comparisons are
kept apart: a truth value has to be widened before it can take part in arithmetic.
-/

namespace Kaleidoscope.Ssa

/-- A value of a function. The first ones are its parameters. -/
structure ValueId where
  index : Nat
deriving DecidableEq

/-- A block of a function. Control enters at the first one. -/
structure BlockId where
  index : Nat
deriving DecidableEq

/-- A slot of a function. -/
structure SlotId where
  index : Nat
deriving DecidableEq

/-- The block where control enters. -/
def BlockId.entry : BlockId := ⟨0⟩

/-- Arithmetic. -/
inductive Arithmetic where
  | add
  | subtract
  | multiply
deriving DecidableEq

/-- Comparisons. They differ in what they say when an operand is not a number. -/
inductive Comparison where
  /-- True if an operand is not a number. -/
  | unorderedOrLess
  /-- False if an operand is not a number. -/
  | orderedAndDistinct
deriving DecidableEq

/-- Computations that yield a value within the function. -/
inductive Operation where
  | constant (value : Float)
  | arithmetic (op : Arithmetic) (left right : ValueId)
  | compare (op : Comparison) (left right : ValueId)
  /-- A truth value as the number one or zero. -/
  | widen (value : ValueId)
  | load (slot : SlotId)
  /-- The value paired with the block that control comes from. -/
  | phi (incoming : List (ValueId × BlockId))
deriving DecidableEq

/-- Instructions. -/
inductive Instruction where
  | assign (target : ValueId) (operation : Operation)
  | store (slot : SlotId) (value : ValueId)
  | call (target : ValueId) (callee : String) (arguments : List ValueId)
deriving DecidableEq

/-- How a block passes control on. -/
inductive Terminator where
  | branch (block : BlockId)
  | branchIf (condition : ValueId) (consequent alternative : BlockId)
  | ret (value : ValueId)
deriving DecidableEq

/-- Instructions that are executed one after the other. -/
structure Block where
  label : String
  instructions : List Instruction
  /-- Missing only as long as the block is incomplete. -/
  terminator : Option Terminator
deriving DecidableEq

/-- What a function does. -/
structure Body where
  /-- The variables that the slots hold. -/
  slots : List String
  blocks : List Block
  /-- The number of values, parameters included. -/
  valueCount : Nat
deriving DecidableEq

/-- A function from numbers to a number. Without a body it is only declared. -/
structure Function where
  name : String
  parameters : List String
  body : Option Body
deriving DecidableEq

/-- The number of parameters. -/
def Function.arity (f : Function) : Nat := f.parameters.length

/-- Is the body missing? -/
def Function.isDeclaration (f : Function) : Bool := f.body.isNone

end Kaleidoscope.Ssa
