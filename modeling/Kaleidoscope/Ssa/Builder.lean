import Kaleidoscope.Ssa

/-!
# Building functions

A builder appends instructions to the block where it stands. It numbers values in the order in
which their instructions are added, keeps labels distinct, and in the end sees to it that every
block was terminated exactly once.
-/

namespace Kaleidoscope.Ssa

/-- Why a body is no function. -/
inductive VerifyError where
  | missingTerminator (label function : String)
  | multipleTerminators (label function : String)

/-- How the error is reported. -/
def VerifyError.message : VerifyError → String
  | missingTerminator label function => s!"block `{label}` of function `{function}` has no terminator"
  | multipleTerminators label function =>
    s!"block `{label}` of function `{function}` is terminated more than once"

/-- A function under construction. -/
structure Builder where
  name : String
  parameters : List String
  slots : List String
  blocks : List Block
  valueCount : Nat
  /-- The block that instructions are appended to. -/
  current : BlockId
  /-- The block that was the first to be terminated twice. -/
  overterminated : Option BlockId

namespace Builder

/-- A function with an empty block to begin with. -/
def start (name : String) (parameters : List String) : Builder where
  name := name
  parameters := parameters
  slots := []
  blocks := [⟨"entry", [], none⟩]
  valueCount := parameters.length
  current := .entry
  overterminated := none

/-- The label made of `label` and a number. The first label has no number. -/
def numbered (label : String) : Nat → String
  | 0 => label
  | n + 1 => s!"{label}{n + 1}"

/-- The first number from `n` on whose label is not among those taken. A label that is met is
struck out, so the search ends. -/
def firstFree (label : String) (taken : List String) (n : Nat) : Nat :=
  if numbered label n ∈ taken then firstFree label (taken.erase (numbered label n)) (n + 1) else n
termination_by taken.length
decreasing_by
  rename_i h
  have := List.length_pos_of_mem h
  rw [List.length_erase_of_mem h]
  omega

/-- The first label made of `label` and a number that no block has. Only labels that begin with
`label` can stand in its way. -/
def freshLabel (b : Builder) (label : String) : String :=
  let taken := (b.blocks.map (·.label)).filter (·.startsWith label)
  numbered label (firstFree label taken 0)

/-- Add an empty block. -/
def appendBlock (b : Builder) (label : String) : BlockId × Builder :=
  (⟨b.blocks.length⟩, { b with blocks := b.blocks ++ [⟨b.freshLabel label, [], none⟩] })

/-- Go on at the end of a block. -/
def moveTo (b : Builder) (block : BlockId) : Builder := { b with current := block }

/-- Add a slot for a variable. -/
def allocate (b : Builder) (variableName : String) : SlotId × Builder :=
  (⟨b.slots.length⟩, { b with slots := b.slots ++ [variableName] })

/-- Append an instruction to the current block. -/
def append (b : Builder) (instruction : Instruction) : Builder :=
  let blocks := b.blocks.modify b.current.index fun block =>
    { block with instructions := block.instructions ++ [instruction] }
  { b with blocks := blocks }

/-- Append an instruction that computes a new value. -/
def appendValue (b : Builder) (instruction : ValueId → Instruction) : ValueId × Builder :=
  let target : ValueId := ⟨b.valueCount⟩
  (target, { b.append (instruction target) with valueCount := b.valueCount + 1 })

/-- Compute a value. -/
def assign (b : Builder) (operation : Operation) : ValueId × Builder :=
  b.appendValue (.assign · operation)

/-- Call a function. -/
def call (b : Builder) (callee : String) (arguments : List ValueId) : ValueId × Builder :=
  b.appendValue (.call · callee arguments)

/-- Write a value into a slot. -/
def store (b : Builder) (slot : SlotId) (value : ValueId) : Builder := b.append (.store slot value)

/-- Terminate the current block. Doing so twice is remembered. -/
def terminate (b : Builder) (terminator : Terminator) : Builder :=
  let again := b.blocks[b.current.index]?.any (·.terminator.isSome)
  let blocks := b.blocks.modify b.current.index fun block =>
    { block with terminator := some terminator }
  let overterminated := b.overterminated <|> (if again then some b.current else none)
  { b with blocks := blocks, overterminated := overterminated }

/-- The label of a block. -/
def labelOf (b : Builder) (block : BlockId) : String :=
  (b.blocks[block.index]?.map (·.label)).getD ""

/-- The finished function, if every block was terminated exactly once. -/
def finish (b : Builder) : Except VerifyError Function :=
  match b.overterminated with
  | some block => .error (.multipleTerminators (b.labelOf block) b.name)
  | none =>
    match b.blocks.find? (·.terminator.isNone) with
    | some block => .error (.missingTerminator block.label b.name)
    | none => .ok ⟨b.name, b.parameters, some ⟨b.slots, b.blocks, b.valueCount⟩⟩

end Builder

end Kaleidoscope.Ssa
