import Kaleidoscope.Machine.Error
import Kaleidoscope.Machine.Value

/-!
# One invocation of a function

A frame holds the registers and the slots of an invocation and the instructions of the current
block that are still to be executed.
-/

namespace Kaleidoscope.Machine

open Ssa (Block BlockId Body SlotId ValueId)

/-- The state of an invocation. -/
structure Frame where
  /-- The name of the function, for messages. -/
  function : String
  body : Body
  registers : Array (Option Value)
  slots : Array (Option Float)
  /-- The block that control came from. -/
  previous : Option BlockId
  current : BlockId
  block : Block
  /-- The instructions of the block that are left. -/
  pending : List Ssa.Instruction

namespace Frame

/-- A failure of the frame's function. -/
def fault {α : Type} (f : Frame) (fault : Fault) : Except RuntimeError α :=
  .error (.malformed f.function fault)

/-- An invocation that is about to execute its first instruction. -/
def start (function : String) (body : Body) (arguments : List Float) : Except RuntimeError Frame :=
  match body.blocks with
  | [] => .error (.malformed function (.missingBlock .entry))
  | entry :: _ => .ok {
      function, body
      registers := Array.ofFn fun i : Fin body.valueCount => arguments[i.val]?.map Value.number
      slots := Array.replicate body.slots.length none
      previous := none
      current := .entry
      block := entry
      pending := entry.instructions }

/-- The contents of a register. -/
def value (f : Frame) (v : ValueId) : Except RuntimeError Value :=
  match f.registers[v.index]? with
  | some (some x) => .ok x
  | _ => f.fault (.undefinedValue v)

/-- The number in a register. -/
def number (f : Frame) (v : ValueId) : Except RuntimeError Float := do
  match (← f.value v).number? with
  | some x => .ok x
  | none => f.fault (.notNumber v)

/-- The truth value in a register. -/
def truth (f : Frame) (v : ValueId) : Except RuntimeError Bool := do
  match (← f.value v).truth? with
  | some b => .ok b
  | none => f.fault (.notTruth v)

/-- Put a value into a register. -/
def assign (f : Frame) (v : ValueId) (x : Value) : Except RuntimeError Frame :=
  if h : v.index < f.registers.size then
    .ok { f with registers := f.registers.set v.index (some x) h }
  else f.fault (.valueOutOfRange v)

/-- The number in a slot. -/
def load (f : Frame) (slot : SlotId) : Except RuntimeError Float :=
  match f.slots[slot.index]? with
  | some (some x) => .ok x
  | _ => f.fault (.uninitializedSlot slot)

/-- Put a number into a slot. -/
def store (f : Frame) (slot : SlotId) (x : Float) : Except RuntimeError Frame :=
  if h : slot.index < f.slots.size then
    .ok { f with slots := f.slots.set slot.index (some x) h }
  else f.fault (.slotOutOfRange slot)

/-- Arithmetic on numbers. -/
def calculate : Ssa.Arithmetic → Float → Float → Float
  | .add, x, y => x + y
  | .subtract, x, y => x - y
  | .multiply, x, y => x * y

/-- Comparison of numbers. -/
def compare : Ssa.Comparison → Float → Float → Bool
  | .unorderedOrLess, x, y => !(x ≥ y : Bool)
  | .orderedAndDistinct, x, y => (x < y : Bool) || (x > y : Bool)

/-- The value of an operation. A phi reads the register that is paired with the block that control
came from, as it is at that moment. -/
def evaluate (f : Frame) : Ssa.Operation → Except RuntimeError Value
  | .constant x => .ok (.number x)
  | .arithmetic op left right => do
    let x ← f.number left
    let y ← f.number right
    .ok (.number (calculate op x y))
  | .compare op left right => do
    let x ← f.number left
    let y ← f.number right
    .ok (.truth (compare op x y))
  | .widen v => do
    let b ← f.truth v
    .ok (.number (if b then 1 else 0))
  | .load slot => do
    let x ← f.load slot
    .ok (.number x)
  | .phi incoming =>
    match incoming.find? fun alternative => some alternative.2 = f.previous with
    | some alternative => f.value alternative.1
    | none => f.fault (.missingAlternative f.block.label)

/-- Pass control on to a block. -/
def moveTo (f : Frame) (target : BlockId) : Except RuntimeError Frame :=
  match f.body.blocks[target.index]? with
  | none => f.fault (.missingBlock target)
  | some block => .ok { f with
      previous := some f.current
      current := target
      block := block
      pending := block.instructions }

end Frame

end Kaleidoscope.Machine
