import Kaleidoscope.Proofs.Machine.Runs

/-!
# Running functions by recursion

The machine keeps invocations that wait for a call on a stack. Here a call is executed by recursion
instead: the callee is run to its end as a part of the instruction that calls it. Nothing is said of
other invocations, and there is no stack.

An invocation need not end, so each is given a number of steps. Calls need no such bound, because
they can be nested only so deeply.
-/

namespace Kaleidoscope.Machine

open Ssa (Program)

/-- A computation that may fail, that records the calls of native functions, the last one first, and
that may take too many steps. -/
abbrev Execution := ExceptT RuntimeError (StateT (List NativeCall) Option)

namespace Execution

variable {α β : Type}

/-- There are no steps left. -/
def exhausted : Execution α := ExceptT.mk fun _ => none

/-- Fail where the result is a failure. -/
def attempt (result : Except RuntimeError α) : Execution α := ExceptT.mk (pure result)

/-- Record the call of a native function. -/
def record (call : NativeCall) : Execution Unit := modify (call :: ·)

/-- How functions are called. -/
abbrev Caller := String → List Float → Execution Float

/-- Execute an instruction. A call is executed to its end. -/
def perform (call : Caller) (frame : Frame) : Ssa.Instruction → Execution Frame
  | .assign target operation => do
    let value ← attempt (frame.evaluate operation)
    attempt (frame.assign target value)
  | .store slot v => do
    let x ← attempt (frame.number v)
    attempt (frame.store slot x)
  | .call target callee arguments => do
    let values ← attempt (arguments.mapM frame.number)
    let x ← call callee values
    attempt (frame.assign target (.number x))

/-- Leave a block for another one, or return a value. -/
def leave (frame : Frame) : Except RuntimeError (Frame ⊕ Float) :=
  match frame.block.terminator with
  | none => frame.fault (.missingTerminator frame.block.label)
  | some (.branch target) => do
    let next ← frame.moveTo target
    return .inl next
  | some (.branchIf condition consequent alternative) => do
    let holds ← frame.truth condition
    let next ← frame.moveTo (if holds then consequent else alternative)
    return .inl next
  | some (.ret value) => do
    let x ← frame.number value
    return .inr x

/-- Execute what is left of an invocation, up to its return. -/
def execute (call : Caller) : Nat → Frame → Execution Float
  | 0, _ => exhausted
  | steps + 1, frame =>
    match frame.pending with
    | [] => do
      match ← attempt (leave frame) with
      | .inl next => execute call steps next
      | .inr x => return x
    | instruction :: pending => do
      let next ← perform call { frame with pending := pending } instruction
      execute call steps next

/-- Call a function inside `depth` others. The depth is checked first. A function with a body starts
in its first block, with its parameters in registers and nothing else in registers or slots. -/
def invoke (m : Machine) (p : Program) (steps depth : Nat) : Caller := fun name arguments =>
  if m.limit ≤ depth then throw (.callDepth m.limit)
  else
    match bodyOf? p name with
    | some (arity, body) =>
      if arity = arguments.length then do
        let frame ← attempt (Frame.start name body arguments)
        execute (invoke m p steps (depth + 1)) steps frame
      else throw (.arity name arity arguments.length)
    | none =>
      match m.natives.lookup name with
      | some native =>
        if native.arity = arguments.length then do
          record ⟨name, arguments, native.output arguments⟩
          return native.result arguments
        else throw (.arity name native.arity arguments.length)
      | none => throw (.unresolved name)
termination_by m.limit - depth

end Execution

/-- What a call from outside comes to when it is executed by recursion. -/
def callByRecursion (m : Machine) (p : Program) (steps : Nat) (name : String)
    (arguments : List Float) : Option Run :=
  ((Execution.invoke m p steps 0 name arguments).run.run []).map
    fun (result, natives) => ⟨result, natives.reverse⟩

namespace Execution

variable {α β : Type} {m : Machine} {p : Program}

/-- How two computations end that follow each other. -/
theorem run_bind (action : Execution α) (next : α → Execution β) (natives : List NativeCall) :
    (action >>= next).run.run natives =
      match action.run.run natives with
      | none => none
      | some (.error e, after) => some (.error e, after)
      | some (.ok a, after) => (next a).run.run after := by
  rw [ExceptT.run_bind, StateT.run_bind]
  cases action.run.run natives with
  | none => rfl
  | some result =>
    obtain ⟨result, after⟩ := result
    cases result with
    | error e => rfl
    | ok a => rfl

/-- An attempt that does not fail has a value. -/
theorem attempt_ok (a : α) : attempt (.ok a) = pure a := rfl

/-- Two results one after the other are one result. -/
theorem attempt_bind (result : Except RuntimeError α) (f : α → Except RuntimeError β) :
    attempt (result >>= f) = attempt result >>= fun a => attempt (f a) := by
  cases result with
  | error e => rfl
  | ok a => rfl

/-- A call of a function does what the machine does when it begins the call, and then executes the
body. -/
theorem invoke_eq (steps depth : Nat) (name : String) (arguments : List Float) :
    invoke m p steps depth name arguments =
      match m.enter p depth name arguments with
      | .error e => throw e
      | .ok (.returned value call) => do
        record call
        return value
      | .ok (.invoked frame) => execute (invoke m p steps (depth + 1)) steps frame := by
  rw [invoke, enter]
  split
  · rfl
  · cases hbody : bodyOf? p name with
    | some found =>
      obtain ⟨arity, body⟩ := found
      simp only [checkArity]
      split
      · cases hstart : Frame.start name body arguments with
        | error e => rfl
        | ok frame => rfl
      · rfl
    | none =>
      cases hnative : m.natives.lookup name with
      | none => rfl
      | some native =>
        simp only [checkArity]
        split
        · rfl
        · rfl

end Execution

end Kaleidoscope.Machine
