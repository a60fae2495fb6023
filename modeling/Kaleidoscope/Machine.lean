import Kaleidoscope.Dictionary
import Kaleidoscope.Machine.Frame
import Kaleidoscope.Machine.Native
import Kaleidoscope.Ssa.Program

/-!
# Running programs

A call of a function with a body suspends the caller until the callee returns; a call of a native
function is a single step. The machine advances one instruction or one terminator at a time, and
the calls of native functions are recorded in order, whether the run succeeds or not. A run need not
end, so it is given a number of steps.
-/

namespace Kaleidoscope

/-- The native functions and how deeply calls may be nested. -/
structure Machine where
  natives : Dictionary String Machine.Native
  limit : Nat

namespace Machine

open Ssa (Program ValueId)

/-- The limit unless another one is asked for. -/
def standardLimit : Nat := 1024

/-- A machine without native functions. -/
def withLimit (limit : Nat) : Machine := ⟨.empty, limit⟩

/-- Add a native function, in place of one of the same name. -/
def addNative (m : Machine) (name : String) (native : Native) : Machine :=
  { m with natives := m.natives.insert name native }

/-- The machine that a session uses unless it is given another one. -/
def standard : Machine := ⟨.ofList Native.builtins, standardLimit⟩

/-- A call of a native function. -/
structure NativeCall where
  name : String
  arguments : List Float
  output : String

/-- What a call begins with. -/
inductive Entry where
  /-- A native function, which has already returned. -/
  | returned (value : Float) (call : NativeCall)
  | invoked (frame : Frame)

/-- Does the number of arguments fit? -/
def checkArity (name : String) (expected found : Nat) : Except RuntimeError Unit :=
  if expected = found then .ok () else .error (.arity name expected found)

/-- The parameter count and the body of a function that has one. -/
def bodyOf? (p : Program) (name : String) : Option (Nat × Ssa.Body) :=
  match p.find? name with
  | some f => f.body.map fun body => (f.arity, body)
  | none => none

/-- Begin a call inside `depth` others. The depth is checked before the name is looked up, and a
body comes before a native function of the same name. -/
def enter (m : Machine) (p : Program) (depth : Nat) (name : String) (arguments : List Float) :
    Except RuntimeError Entry :=
  if m.limit ≤ depth then .error (.callDepth m.limit)
  else
    match bodyOf? p name with
    | some (arity, body) => do
      checkArity name arity arguments.length
      let frame ← Frame.start name body arguments
      .ok (.invoked frame)
    | none =>
      match m.natives.lookup name with
      | none => .error (.unresolved name)
      | some native => do
        checkArity name native.arity arguments.length
        .ok (.returned (native.result arguments) ⟨name, arguments, native.output arguments⟩)

/-- An invocation that waits for a call to return, and the register for the result. -/
structure Suspended where
  frame : Frame
  target : ValueId

/-- The running invocation and those that wait, the innermost first. -/
structure State where
  frame : Frame
  callers : List Suspended

/-- The state after a step. -/
inductive Status where
  | running (state : State)
  | finished (result : Except RuntimeError Float)

/-- What a step does: it may call a native function. -/
structure Step where
  status : Status
  native : Option NativeCall

namespace Status

/-- Go on with a frame, unless it failed. -/
def goOn (callers : List Suspended) : Except RuntimeError Frame → Status
  | .ok frame => .running ⟨frame, callers⟩
  | .error e => .finished (.error e)

/-- Give a value back to the innermost caller, if there is one. -/
def giveBack (value : Float) : List Suspended → Status
  | [] => .finished (.ok value)
  | caller :: callers => goOn callers (caller.frame.assign caller.target (.number value))

end Status

/-- Begin a call from a running invocation. -/
def stepCall (m : Machine) (p : Program) (frame : Frame) (callers : List Suspended)
    (target : ValueId) (callee : String) (arguments : List ValueId) : Step :=
  match arguments.mapM frame.number with
  | .error e => ⟨.finished (.error e), none⟩
  | .ok values =>
    match m.enter p (callers.length + 1) callee values with
    | .error e => ⟨.finished (.error e), none⟩
    | .ok (.returned value call) =>
      ⟨.goOn callers (frame.assign target (.number value)), some call⟩
    | .ok (.invoked inner) => ⟨.running ⟨inner, ⟨frame, target⟩ :: callers⟩, none⟩

/-- Leave a block. -/
def stepTerminator (frame : Frame) (callers : List Suspended) : Status :=
  match frame.block.terminator with
  | none => .finished (frame.fault (.missingTerminator frame.block.label))
  | some (.branch target) => .goOn callers (frame.moveTo target)
  | some (.branchIf condition consequent alternative) => .goOn callers <| do
      let holds ← frame.truth condition
      frame.moveTo (if holds then consequent else alternative)
  | some (.ret value) =>
    match frame.number value with
    | .error e => .finished (.error e)
    | .ok x => .giveBack x callers

/-- Execute the next instruction, or the terminator if no instruction is left. -/
def step (m : Machine) (p : Program) : State → Step
  | ⟨frame, callers⟩ =>
    match frame.pending with
    | [] => ⟨stepTerminator frame callers, none⟩
    | instruction :: pending =>
      let frame := { frame with pending := pending }
      match instruction with
      | .assign target operation => ⟨.goOn callers (frame.evaluate operation >>= frame.assign target), none⟩
      | .store slot v => ⟨.goOn callers (frame.number v >>= frame.store slot), none⟩
      | .call target callee arguments => stepCall m p frame callers target callee arguments

/-- The result of a run and the calls of native functions on the way. -/
structure Run where
  result : Except RuntimeError Float
  natives : List NativeCall

/-- Go on for at most `fuel` steps. The native calls so far are given with the last one first. -/
def runFrom (m : Machine) (p : Program) : Nat → State → List NativeCall → Option Run
  | 0, _, _ => none
  | fuel + 1, state, natives =>
    match m.step p state with
    | ⟨status, native⟩ =>
      let natives := native.toList ++ natives
      match status with
      | .finished result => some ⟨result, natives.reverse⟩
      | .running state => runFrom m p fuel state natives

/-- Call a function for at most `fuel` steps. Nothing comes back if the call has not ended by
then. -/
def call (m : Machine) (p : Program) (fuel : Nat) (name : String) (arguments : List Float) :
    Option Run :=
  match m.enter p 0 name arguments with
  | .error e => some ⟨.error e, []⟩
  | .ok (.returned value call) => some ⟨.ok value, [call]⟩
  | .ok (.invoked frame) => m.runFrom p fuel ⟨frame, []⟩ []

/-- What native functions wrote during a run. -/
def Run.output (r : Run) : String := String.join (r.natives.map (·.output))

end Machine

end Kaleidoscope
