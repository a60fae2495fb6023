import Kaleidoscope.Compiler.Error
import Kaleidoscope.Scope
import Kaleidoscope.Ssa.Program
import Kaleidoscope.Syntax

/-!
# Code for one function

Operands are computed from left to right. Every variable, parameters included, has a slot, so that
it can be assigned to. A conditional joins the values of its branches, each coming from the block
in which the branch ends. A loop runs its body at least once, and its value is zero.

A callee is looked up in the function itself, then in the program, then among the known
signatures. One that only a signature is known of has to be declared before the function can be
stored; the program itself is not touched here.
-/

namespace Kaleidoscope

open Ssa (Builder SlotId ValueId)

/-- What a body can refer to besides its variables. -/
structure Surroundings where
  self : Prototype
  program : Ssa.Program
  prototypes : Dictionary String Prototype

namespace Lowering

/-- The state of generating a function. -/
structure State where
  builder : Builder
  scope : Scope
  /-- The callees that are still to be declared, in order of first use. -/
  declarations : List Prototype

end Lowering

/-- Generation keeps its state when it fails. -/
abbrev Lowering := ExceptT CompileError (StateM Lowering.State)

namespace Lowering

/-- Let the builder compute something. -/
def build {α : Type} (f : Builder → α × Builder) : Lowering α :=
  modifyGet fun s =>
    let (result, builder) := f s.builder
    (result, { s with builder := builder })

/-- Change the builder. -/
def emit (f : Builder → Builder) : Lowering Unit :=
  modify fun s => { s with builder := f s.builder }

/-- Let a name stand for a slot until the innermost scope is left. -/
def bindName (name : String) (slot : SlotId) : Lowering Unit :=
  modify fun s => { s with scope := s.scope.bind name slot }

/-- Generate in a scope of its own, which is left whether generation succeeds or not. -/
def inScope {α : Type} (action : Lowering α) : Lowering α := ExceptT.mk do
  modify fun s => { s with scope := s.scope.enter }
  let result ← action.run
  modify fun s => { s with scope := s.scope.exit }
  return result

/-- The slot that a name stands for. -/
def slotOf (name : String) : Lowering SlotId := do
  match (← get).scope.lookup name with
  | some slot => return slot
  | none => throw (.unknown .variable name)

/-- Remember that a callee is to be declared. -/
def requireDeclaration (p : Prototype) : Lowering Unit :=
  modify fun s =>
    if s.declarations.any (·.name = p.name) then s
    else { s with declarations := s.declarations ++ [p] }

/-- The number of parameters of a callee, if it is known. -/
def arityOf (env : Surroundings) (callee : String) : Lowering (Option Nat) := do
  if callee = env.self.name then return some env.self.arity
  match env.program.find? callee with
  | some f => return some f.arity
  | none =>
    match env.prototypes.lookup callee with
    | none => return none
    | some p =>
      requireDeclaration p
      return some p.arity

/-- Call a callee on as many arguments as it has parameters. -/
def call (env : Surroundings) (callee : String) (arguments : List ValueId) : Lowering ValueId := do
  match ← arityOf env callee with
  | none => throw (.unknown .function callee)
  | some arity =>
    if arity = arguments.length then build (·.call callee arguments)
    else throw (.arity callee arity arguments.length)

/-- Call the function behind a prefix operator. -/
def callUnary (env : Surroundings) (operator : Char) (operand : ValueId) : Lowering ValueId := do
  let callee := Prototype.unaryName operator
  match ← arityOf env callee with
  | none => throw (.unknown .prefixOperator (String.singleton operator))
  | some arity =>
    if arity = 1 then build (·.call callee [operand]) else throw (.arity callee arity 1)

/-- Call the function behind a binary operator. -/
def callBinary (env : Surroundings) (operator : Char) (left right : ValueId) :
    Lowering ValueId := do
  let callee := Prototype.binaryName operator
  if (← arityOf env callee) = some 2 then build (·.call callee [left, right])
  else throw (.unimplemented operator)

/-- Apply a binary operator other than assignment. -/
def applyBinary (env : Surroundings) (operator : Char) (left right : ValueId) :
    Lowering ValueId := do
  match operator with
  | '+' => build (·.assign (.arithmetic .add left right))
  | '-' => build (·.assign (.arithmetic .subtract left right))
  | '*' => build (·.assign (.arithmetic .multiply left right))
  | '<' =>
    let less ← build (·.assign (.compare .unorderedOrLess left right))
    build (·.assign (.widen less))
  | operator => callBinary env operator left right

/-- A number as the condition of a branch: it holds unless it is zero or no number. -/
def condition (value : ValueId) : Lowering ValueId := do
  let zero ← build (·.assign (.constant 0))
  build (·.assign (.compare .orderedAndDistinct value zero))

/-- A new variable with its initial value, not yet in scope. -/
def allocate (name : String) (value : ValueId) : Lowering SlotId := do
  let slot ← build (·.allocate name)
  emit (·.store slot value)
  return slot

mutual

/-- Generate an expression and return its value. -/
def expression (env : Surroundings) : Expr → Lowering ValueId
  | .number value => build (·.assign (.constant value))
  | .var name => do
    let slot ← slotOf name
    build (·.assign (.load slot))
  | .unary operator operand => do
    let value ← expression env operand
    callUnary env operator value
  | .binary operator left right => do
    if operator = '=' then
      match left with
      | .var name =>
        let value ← expression env right
        let slot ← slotOf name
        emit (·.store slot value)
        return value
      | _ => throw .assignmentTarget
    else
      let leftValue ← expression env left
      let rightValue ← expression env right
      applyBinary env operator leftValue rightValue
  | .call callee arguments => do
    let values ← expressions env arguments
    call env callee values
  | .conditional test consequent alternative => do
    let value ← expression env test
    let holds ← condition value
    let consequentBlock ← build (·.appendBlock "then")
    let alternativeBlock ← build (·.appendBlock "else")
    let join ← build (·.appendBlock "ifcont")
    emit (·.terminate (.branchIf holds consequentBlock alternativeBlock))
    emit (·.moveTo consequentBlock)
    let consequentValue ← expression env consequent
    let consequentEnd := (← get).builder.current
    emit (·.terminate (.branch join))
    emit (·.moveTo alternativeBlock)
    let alternativeValue ← expression env alternative
    let alternativeEnd := (← get).builder.current
    emit (·.terminate (.branch join))
    emit (·.moveTo join)
    build (·.assign (.phi [(consequentValue, consequentEnd), (alternativeValue, alternativeEnd)]))
  | .loop name start finish step body => do
    let startValue ← expression env start
    let slot ← allocate name startValue
    let loopBlock ← build (·.appendBlock "loop")
    let after ← build (·.appendBlock "afterloop")
    emit (·.terminate (.branch loopBlock))
    emit (·.moveTo loopBlock)
    inScope do
      bindName name slot
      let _ ← expression env body
      let increment ← expressionOr env 1 step
      let current ← build (·.assign (.load slot))
      let next ← build (·.assign (.arithmetic .add current increment))
      emit (·.store slot next)
      let value ← expression env finish
      let holds ← condition value
      emit (·.terminate (.branchIf holds loopBlock after))
    emit (·.moveTo after)
    build (·.assign (.constant 0))
  | .locals bindings body => inScope do
    bindLocals env bindings
    expression env body

/-- Generate expressions from left to right. -/
def expressions (env : Surroundings) : List Expr → Lowering (List ValueId)
  | [] => return []
  | first :: rest => do
    let value ← expression env first
    let values ← expressions env rest
    return value :: values

/-- Generate an expression, or else a constant. -/
def expressionOr (env : Surroundings) (constant : Float) : Option Expr → Lowering ValueId
  | none => build (·.assign (.constant constant))
  | some e => expression env e

/-- Generate local variables one after the other. Each one sees those before it. -/
def bindLocals (env : Surroundings) : List (String × Option Expr) → Lowering Unit
  | [] => return ()
  | (name, initial) :: rest => do
    let value ← expressionOr env 0 initial
    let slot ← allocate name value
    bindName name slot
    bindLocals env rest

end

/-- Copy parameters into slots, from the one at `index` on. -/
def bindParameters (index : Nat) : List String → Lowering Unit
  | [] => return ()
  | name :: rest => do
    let slot ← allocate name ⟨index⟩
    bindName name slot
    bindParameters (index + 1) rest

/-- Generate the body of a function and let it return its value. -/
def function (env : Surroundings) (body : Expr) : Lowering Unit := do
  let value ← inScope do
    bindParameters 0 env.self.parameters
    expression env body
  emit (·.terminate (.ret value))

/-- The state in which a function begins. -/
def State.start (p : Prototype) : State := ⟨.start p.name p.parameters, .empty, []⟩

end Lowering

/-- A generated function with the callees that have to be declared before it is stored. -/
structure Lowered where
  function : Ssa.Function
  declarations : List Prototype

/-- Generate the function `env.self` with the given body. -/
def lower (env : Surroundings) (body : Expr) : Except CompileError Lowered :=
  match (Lowering.function env body).run.run (.start env.self) with
  | (.error e, _) => .error e
  | (.ok (), state) =>
    match state.builder.finish with
    | .error e => .error (.verify e)
    | .ok f => .ok ⟨f, state.declarations⟩

end Kaleidoscope
