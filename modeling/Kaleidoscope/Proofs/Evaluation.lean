import Kaleidoscope.Machine
import Kaleidoscope.Syntax

/-!
# Evaluating expressions directly

What an expression means is said here without generating anything. Variables are cells that can be
assigned to; a name stands for the innermost cell that has it. Evaluation goes from left to right
and records the calls of native functions. A call is evaluated with the cells of its parameters
alone, by the definition that the callee has at that moment.

Loops need not end, so each gets a number of rounds, and nothing comes back if that is not enough.
Calls need no such bound, because they can be nested only so deeply.
-/

namespace Kaleidoscope

open Machine (NativeCall RuntimeError)

/-- Why an evaluation has no value. -/
inductive Stop where
  | failed (error : RuntimeError)
  /-- A name that no cell has, or an assignment to something that is no variable. -/
  | meaningless

/-- A variable. -/
structure Cell where
  name : String
  contents : Float

/-- What evaluation works on. -/
structure Memory where
  /-- The variables, the innermost first. -/
  cells : List Cell
  /-- The calls of native functions so far, the last one first. -/
  natives : List NativeCall

/-- Evaluation keeps its memory when it stops, and may take too many rounds. -/
abbrev Evaluation := ExceptT Stop (StateT Memory Option)

namespace Evaluation

/-- Is the number a truth? It has to be ordered, and different from zero. -/
def holds (x : Float) : Bool := !x.isNaN && !(x == 0)

/-- Is one number less than another one? Numbers without an order count as such. -/
def less (x y : Float) : Bool := x.isNaN || y.isNaN || x < y

/-- The contents of the innermost cell of a name. -/
def readIn (name : String) : List Cell → Option Float
  | [] => none
  | cell :: outer => if cell.name = name then some cell.contents else readIn name outer

/-- Change the innermost cell of a name. -/
def writeIn (name : String) (x : Float) : List Cell → Option (List Cell)
  | [] => none
  | cell :: outer =>
    if cell.name = name then some (⟨name, x⟩ :: outer) else (writeIn name x outer).map (cell :: ·)

/-- The contents of a variable. -/
def read (name : String) : Evaluation Float := do
  match readIn name (← get).cells with
  | some x => return x
  | none => throw .meaningless

/-- Assign to a variable. -/
def write (name : String) (x : Float) : Evaluation Unit := do
  match writeIn name x (← get).cells with
  | some cells => modify fun memory => { memory with cells := cells }
  | none => throw .meaningless

/-- A new innermost variable. -/
def introduce (name : String) (x : Float) : Evaluation Unit :=
  modify fun memory => { memory with cells := ⟨name, x⟩ :: memory.cells }

/-- Evaluate, and drop the variables that have been added. -/
def inScope {α : Type} (action : Evaluation α) : Evaluation α := do
  let outside := (← get).cells.length
  let a ← action
  modify fun memory => { memory with cells := memory.cells.drop (memory.cells.length - outside) }
  return a

/-- Evaluate with other variables. -/
def withCells {α : Type} (cells : List Cell) (action : Evaluation α) : Evaluation α := do
  let outer := (← get).cells
  modify fun memory => { memory with cells := cells }
  let a ← action
  modify fun memory => { memory with cells := outer }
  return a

/-- Record the call of a native function. -/
def record (call : NativeCall) : Evaluation Unit :=
  modify fun memory => { memory with natives := call :: memory.natives }

/-- Evaluate again and again, as long as the value says so. -/
def repeatWhile (round : Evaluation Bool) : Nat → Evaluation Unit
  | 0 => ExceptT.mk fun _ => none
  | rounds + 1 => do if ← round then repeatWhile round rounds

/-- How functions are called. -/
abbrev Caller := String → List Float → Evaluation Float

/-- Apply a binary operator other than assignment. -/
def apply (call : Caller) (operator : Char) (x y : Float) : Evaluation Float :=
  match operator with
  | '+' => return x + y
  | '-' => return x - y
  | '*' => return x * y
  | '<' => return if less x y then 1 else 0
  | operator => call (Prototype.binaryName operator) [x, y]

mutual

/-- The value of an expression. -/
def evaluate (rounds : Nat) (call : Caller) : Expr → Evaluation Float
  | .number x => return x
  | .var name => read name
  | .unary operator operand => do
    let x ← evaluate rounds call operand
    call (Prototype.unaryName operator) [x]
  | .binary operator left right => do
    if operator = '=' then
      match left with
      | .var name =>
        let x ← evaluate rounds call right
        write name x
        return x
      | _ => throw .meaningless
    else
      let x ← evaluate rounds call left
      let y ← evaluate rounds call right
      apply call operator x y
  | .call callee arguments => do
    let xs ← evaluateAll rounds call arguments
    call callee xs
  | .conditional condition consequent alternative => do
    let x ← evaluate rounds call condition
    if holds x then evaluate rounds call consequent else evaluate rounds call alternative
  | .loop name start finish step body => do
    let x ← evaluate rounds call start
    inScope do
      introduce name x
      repeatWhile (do
        let _ ← evaluate rounds call body
        let increment ← evaluateOr rounds call 1 step
        let current ← read name
        write name (current + increment)
        let y ← evaluate rounds call finish
        return holds y) rounds
    return 0
  | .locals bindings body => inScope do
    bindAll rounds call bindings
    evaluate rounds call body

/-- The values of expressions, from left to right. -/
def evaluateAll (rounds : Nat) (call : Caller) : List Expr → Evaluation (List Float)
  | [] => return []
  | first :: rest => do
    let x ← evaluate rounds call first
    let xs ← evaluateAll rounds call rest
    return x :: xs

/-- The value of an expression, or else the given one. -/
def evaluateOr (rounds : Nat) (call : Caller) (otherwise : Float) : Option Expr → Evaluation Float
  | none => return otherwise
  | some e => evaluate rounds call e

/-- Add variables one after the other. Each value sees the variables before it. -/
def bindAll (rounds : Nat) (call : Caller) : List (String × Option Expr) → Evaluation Unit
  | [] => return ()
  | (name, initial) :: rest => do
    let x ← evaluateOr rounds call 0 initial
    introduce name x
    bindAll rounds call rest

end

/-- A binary operator other than assignment is applied to the values of its operands. -/
theorem evaluate_binary {rounds : Nat} {call : Caller} {operator : Char} (hop : operator ≠ '=')
    (left right : Expr) :
    evaluate rounds call (.binary operator left right) = (do
      let x ← evaluate rounds call left
      let y ← evaluate rounds call right
      apply call operator x y) := by
  cases left <;> simp only [evaluate, if_neg hop]

/-- The cells of parameters. A later parameter hides an earlier one of the same name. -/
def cellsOf (parameters : List String) (arguments : List Float) : List Cell :=
  (List.zipWith Cell.mk parameters arguments).reverse

end Evaluation

/-- The definition of each function that has one. -/
abbrev Definitions := String → Option Definition

namespace Definitions

open Evaluation

/-- Call a function when calls may be nested `depth` deep from here on. A definition comes before a
native function of the same name. -/
def invoke (m : Machine) (definitions : Definitions) (rounds : Nat) : Nat → Caller
  | 0, _, _ => throw (.failed (.callDepth m.limit))
  | depth + 1, name, arguments =>
    match definitions name with
    | some d =>
      if d.prototype.arity = arguments.length then
        withCells (cellsOf d.prototype.parameters arguments)
          (evaluate rounds (invoke m definitions rounds depth) d.body)
      else throw (.failed (.arity name d.prototype.arity arguments.length))
    | none =>
      match m.natives.lookup name with
      | some native =>
        if native.arity = arguments.length then do
          record ⟨name, arguments, native.output arguments⟩
          return native.result arguments
        else throw (.failed (.arity name native.arity arguments.length))
      | none => throw (.failed (.unresolved name))

/-- The value of a call from outside, or why there is none, and the calls of native functions in
order. -/
def call (m : Machine) (definitions : Definitions) (rounds : Nat) (name : String)
    (arguments : List Float) : Option (Except Stop Float × List NativeCall) :=
  ((invoke m definitions rounds m.limit name arguments).run.run ⟨[], []⟩).map
    fun (result, memory) => (result, memory.natives.reverse)

end Definitions

end Kaleidoscope
