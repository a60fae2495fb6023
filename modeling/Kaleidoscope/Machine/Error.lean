import Kaleidoscope.Ssa

/-!
# Why a run fails

A call can fail because nobody implements its callee, because the number of arguments is wrong or
because calls are nested too deeply. Everything else is a fault of the code itself.
-/

namespace Kaleidoscope.Machine

open Ssa (BlockId SlotId ValueId)

/-- Faults of ill-formed code. -/
inductive Fault where
  | undefinedValue (value : ValueId)
  | notNumber (value : ValueId)
  | notTruth (value : ValueId)
  | valueOutOfRange (value : ValueId)
  | uninitializedSlot (slot : SlotId)
  | slotOutOfRange (slot : SlotId)
  | missingBlock (block : BlockId)
  | missingAlternative (label : String)
  | missingTerminator (label : String)

/-- How the fault is described. -/
def Fault.text : Fault → String
  | undefinedValue value => s!"use of undefined value %{value.index}"
  | notNumber value => s!"%{value.index} is not a number"
  | notTruth value => s!"%{value.index} is not a boolean"
  | valueOutOfRange value => s!"value %{value.index} out of range"
  | uninitializedSlot slot => s!"load from uninitialized slot ${slot.index}"
  | slotOutOfRange slot => s!"slot ${slot.index} out of range"
  | missingBlock block => s!"branch to missing block {block.index}"
  | missingAlternative label => s!"phi in block `{label}` has no entry for its predecessor"
  | missingTerminator label => s!"block `{label}` has no terminator"

/-- Causes of failure. -/
inductive RuntimeError where
  /-- The function has neither a body nor a native implementation. -/
  | unresolved (name : String)
  | arity (name : String) (expected found : Nat)
  | callDepth (limit : Nat)
  | malformed (function : String) (fault : Fault)

/-- How the error is reported. -/
def RuntimeError.message : RuntimeError → String
  | unresolved name => s!"unresolved external function `{name}`"
  | arity name expected found =>
    s!"function `{name}` expects {expected} arguments, received {found}"
  | callDepth limit => s!"maximum call depth of {limit} exceeded"
  | malformed function fault => s!"malformed function `{function}`: {fault.text}"

end Kaleidoscope.Machine
