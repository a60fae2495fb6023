import Kaleidoscope.Compiler.Lowering
import Mathlib.Tactic.Basic

/-!
# Successful generation, step by step

`Yields action s a t` says that generation takes the state `s` to `t` and gives `a`. The lemmas
below take a successful run of each construct apart into the runs of its parts and the instructions
between them; nothing else needs to look into the monad.
-/

namespace Kaleidoscope

namespace Ssa.Builder

/-- A new slot that holds a value. -/
def introduce (b : Builder) (name : String) (value : ValueId) : Builder :=
  (b.allocate name).2.store ⟨b.slots.length⟩ value

/-- A number as the condition of a branch. -/
def test (b : Builder) (value : ValueId) : ValueId × Builder :=
  let zero := b.assign (.constant 0)
  zero.2.assign (.compare .orderedAndDistinct value zero.1)

/-- The blocks of a conditional: two branches and the place where they meet. -/
def addBranches (b : Builder) : Builder :=
  (((b.appendBlock "then").2.appendBlock "else").2.appendBlock "ifcont").2

/-- The blocks of a loop: its body and what follows it. -/
def addLoop (b : Builder) : Builder := ((b.appendBlock "loop").2.appendBlock "afterloop").2

/-- The variable in a slot, increased. -/
def increase (b : Builder) (slot : SlotId) (increment : ValueId) : Builder :=
  let current := b.assign (.load slot)
  let next := current.2.assign (.arithmetic .add current.1 increment)
  next.2.store slot next.1

end Ssa.Builder

/-- The built-in operators, one by one. -/
theorem OperatorTable.eq_of_isBuiltin {operator : Char} (h : isBuiltin operator) :
    operator = '=' ∨ operator = '<' ∨ operator = '+' ∨ operator = '-' ∨ operator = '*' := by
  simp only [isBuiltin, builtins, List.any_cons, List.any_nil, Bool.or_false, Bool.or_eq_true,
    decide_eq_true_eq] at h
  rcases h with rfl | rfl | rfl | rfl | rfl <;> simp

/-- No other operator is built in. -/
theorem OperatorTable.not_isBuiltin {operator : Char} (hassign : operator ≠ '=')
    (hplus : operator ≠ '+') (hminus : operator ≠ '-') (htimes : operator ≠ '*')
    (hless : operator ≠ '<') : ¬ isBuiltin operator := by
  intro h
  rcases eq_of_isBuiltin h with rfl | rfl | rfl | rfl | rfl
  · exact hassign rfl
  · exact hless rfl
  · exact hplus rfl
  · exact hminus rfl
  · exact htimes rfl

namespace Surroundings

/-- The number of parameters of a callee, if there is a way to know it. -/
def arity? (env : Surroundings) (callee : String) : Option Nat :=
  if callee = env.self.name then some env.self.arity
  else
    match env.program.find? callee with
    | some f => some f.arity
    | none => (env.prototypes.lookup callee).map Prototype.arity

/-- The signature of a callee that nothing but a signature is known of. -/
def onlySigned? (env : Surroundings) (callee : String) : Option Prototype :=
  if callee = env.self.name then none
  else
    match env.program.find? callee with
    | some _ => none
    | none => env.prototypes.lookup callee

/-- The declarations after a callee has been looked up. -/
def require (env : Surroundings) (declarations : List Prototype) (callee : String) :
    List Prototype :=
  match env.onlySigned? callee with
  | none => declarations
  | some p => if declarations.any (·.name = p.name) then declarations else declarations ++ [p]

end Surroundings

namespace Lowering

open Ssa (Builder SlotId ValueId)

variable {α β : Type} {env : Surroundings} {s t u : State}

/-- Generation succeeds from one state to another. -/
def Yields (action : Lowering α) (s : State) (a : α) (t : State) : Prop :=
  action.run.run s = (.ok a, t)

/-- A value changes nothing. -/
theorem yields_pure {a b : α} : Yields (pure a) s b t ↔ b = a ∧ t = s := by
  constructor
  · intro h; cases h; exact ⟨rfl, rfl⟩
  · rintro ⟨rfl, rfl⟩; rfl

/-- The state after two actions is that of the second one, or of the first one if it fails. -/
theorem run_bind (action : Lowering α) (next : α → Lowering β) (s : State) :
    (action >>= next).run.run s =
      match action.run.run s with
      | (.ok a, t) => (next a).run.run t
      | (.error e, t) => (.error e, t) := by
  rw [ExceptT.run_bind, StateT.run_bind]
  rcases action.run.run s with ⟨result, t⟩
  cases result <;> rfl

/-- Two actions succeed one after the other, the second one with the value of the first one. -/
theorem yields_bind {action : Lowering α} {next : α → Lowering β} {b : β} :
    Yields (action >>= next) s b u ↔ ∃ a t, Yields action s a t ∧ Yields (next a) t b u := by
  unfold Yields
  rw [run_bind]
  rcases action.run.run s with ⟨result, t⟩
  cases result with
  | error e =>
    constructor
    · intro h; cases h
    · rintro ⟨a, t, h, -⟩; cases h
  | ok a =>
    constructor
    · intro h; exact ⟨a, t, rfl, h⟩
    · rintro ⟨a, t, h, h'⟩; cases h; exact h'

/-- A failure never succeeds. -/
theorem yields_throw {e : CompileError} {a : α} : Yields (throw e) s a t ↔ False := by
  constructor
  · intro h; cases h
  · exact False.elim

/-- Looking at the state gives the state. -/
theorem yields_get {a : State} : Yields get s a t ↔ a = s ∧ t = s := by
  constructor
  · intro h; cases h; exact ⟨rfl, rfl⟩
  · rintro ⟨rfl, rfl⟩; rfl

/-- What the builder computes changes the builder only. -/
theorem yields_build {f : Builder → α × Builder} {a : α} :
    Yields (build f) s a t ↔ a = (f s.builder).1 ∧ t = { s with builder := (f s.builder).2 } := by
  constructor
  · intro h; cases h; exact ⟨rfl, rfl⟩
  · rintro ⟨rfl, rfl⟩; rfl

/-- A change of the builder changes the builder only. -/
theorem yields_emit {f : Builder → Builder} {a : Unit} :
    Yields (emit f) s a t ↔ t = { s with builder := f s.builder } := by
  constructor
  · intro h; cases h; rfl
  · rintro rfl; rfl

/-- Binding a name changes the scopes only. -/
theorem yields_bindName {name : String} {slot : SlotId} {a : Unit} :
    Yields (bindName name slot) s a t ↔ t = { s with scope := s.scope.bind name slot } := by
  constructor
  · intro h; cases h; rfl
  · rintro rfl; rfl

/-- Whatever happens in a scope of its own, the scope is left afterwards. -/
theorem run_inScope (action : Lowering α) (s : State) :
    (inScope action).run.run s =
      ((action.run.run { s with scope := s.scope.enter }).1,
        { (action.run.run { s with scope := s.scope.enter }).2 with
          scope := (action.run.run { s with scope := s.scope.enter }).2.scope.exit }) := rfl

/-- A scope of its own is entered before the action and left after it. -/
theorem yields_inScope {action : Lowering α} {a : α} :
    Yields (inScope action) s a t ↔ ∃ u, Yields action { s with scope := s.scope.enter } a u ∧
      t = { u with scope := u.scope.exit } := by
  unfold Yields
  rw [run_inScope]
  rcases action.run.run { s with scope := s.scope.enter } with ⟨result, u⟩
  constructor
  · intro h; cases h; exact ⟨u, rfl, rfl⟩
  · rintro ⟨u', h, rfl⟩; cases h; rfl

/-- A name that is in scope has a slot. -/
theorem yields_slotOf {name : String} {slot : SlotId} :
    Yields (slotOf name) s slot t ↔ s.scope.lookup name = some slot ∧ t = s := by
  simp only [slotOf, yields_bind, yields_get]
  constructor
  · rintro ⟨_, _, ⟨rfl, rfl⟩, h⟩
    split at h
    · rename_i found hfound
      obtain ⟨rfl, rfl⟩ := yields_pure.1 h
      exact ⟨hfound, rfl⟩
    · exact (yields_throw.1 h).elim
  · rintro ⟨h, rfl⟩
    exact ⟨t, t, ⟨rfl, rfl⟩, by rw [h]; exact yields_pure.2 ⟨rfl, rfl⟩⟩

/-- A name that is not in scope is unknown. -/
theorem run_slotOf (name : String) (s : State) :
    (slotOf name).run.run s =
      match s.scope.lookup name with
      | some slot => (.ok slot, s)
      | none => (.error (.unknown .variable name), s) := by
  cases hlookup : s.scope.lookup name with
  | some slot => exact yields_slotOf.2 ⟨hlookup, rfl⟩
  | none =>
    change StateT.run (ExceptT.run (match s.scope.lookup name with
      | some slot => pure slot
      | none => throw (.unknown .variable name) : Lowering SlotId)) s = _
    rw [hlookup]
    rfl

/-- Looking up a callee always succeeds, and may add a declaration. -/
theorem run_arityOf (env : Surroundings) (callee : String) (s : State) :
    (arityOf env callee).run.run s =
      (.ok (env.arity? callee), { s with declarations := env.require s.declarations callee }) := by
  unfold arityOf Surroundings.arity? Surroundings.require Surroundings.onlySigned?
  split
  · rfl
  · cases env.program.find? callee with
    | some f => rfl
    | none =>
      cases env.prototypes.lookup callee with
      | none => rfl
      | some p =>
        refine Prod.ext rfl ?_
        dsimp only
        split
        · rename_i hany
          exact if_pos hany
        · rename_i hany
          exact if_neg hany

/-- What a callee turns out to have does not depend on what is generated. -/
theorem yields_arityOf {callee : String} {arity : Option Nat} :
    Yields (arityOf env callee) s arity t ↔ arity = env.arity? callee ∧
      t = { s with declarations := env.require s.declarations callee } := by
  rw [Yields, run_arityOf, Prod.mk.injEq, Except.ok.injEq]
  exact ⟨fun h => ⟨h.1.symm, h.2.symm⟩, fun h => ⟨h.1.symm, h.2.symm⟩⟩

/-- A call fits its callee, which is looked up before one instruction is appended. -/
theorem yields_call {callee : String} {arguments : List ValueId} {v : ValueId}
    (h : Yields (call env callee arguments) s v t) :
    env.arity? callee = some arguments.length ∧ v = (s.builder.call callee arguments).1 ∧
      t = { s with
        builder := (s.builder.call callee arguments).2
        declarations := env.require s.declarations callee } := by
  obtain ⟨arity, u, harity, h⟩ := yields_bind.1 h
  obtain ⟨rfl, rfl⟩ := yields_arityOf.1 harity
  split at h
  · exact (yields_throw.1 h).elim
  · rename_i hsome
    split at h
    · rename_i heq
      exact ⟨heq ▸ hsome, yields_build.1 h⟩
    · exact (yields_throw.1 h).elim

/-- A prefix operator is a call on one argument. -/
theorem yields_callUnary {operator : Char} {operand v : ValueId}
    (h : Yields (callUnary env operator operand) s v t) :
    env.arity? (Prototype.unaryName operator) = some 1 ∧
      v = (s.builder.call (Prototype.unaryName operator) [operand]).1 ∧
      t = { s with
        builder := (s.builder.call (Prototype.unaryName operator) [operand]).2
        declarations := env.require s.declarations (Prototype.unaryName operator) } := by
  obtain ⟨arity, u, harity, h⟩ := yields_bind.1 h
  obtain ⟨rfl, rfl⟩ := yields_arityOf.1 harity
  split at h
  · exact (yields_throw.1 h).elim
  · rename_i hsome
    split at h
    · rename_i heq
      exact ⟨heq ▸ hsome, yields_build.1 h⟩
    · exact (yields_throw.1 h).elim

/-- A binary operator that is not built in is a call on two arguments. -/
theorem yields_callBinary {operator : Char} {left right v : ValueId}
    (h : Yields (callBinary env operator left right) s v t) :
    env.arity? (Prototype.binaryName operator) = some 2 ∧
      v = (s.builder.call (Prototype.binaryName operator) [left, right]).1 ∧
      t = { s with
        builder := (s.builder.call (Prototype.binaryName operator) [left, right]).2
        declarations := env.require s.declarations (Prototype.binaryName operator) } := by
  obtain ⟨arity, u, harity, h⟩ := yields_bind.1 h
  obtain ⟨rfl, rfl⟩ := yields_arityOf.1 harity
  split at h
  · rename_i hsome
    exact ⟨hsome, yields_build.1 h⟩
  · exact (yields_throw.1 h).elim

/-- A built-in operator comes to a few operations, any other to a call. -/
theorem yields_applyBinary {operator : Char} {left right v : ValueId} (hassign : operator ≠ '=')
    (h : Yields (applyBinary env operator left right) s v t) :
    (OperatorTable.isBuiltin operator ∧ ∃ operations : List Ssa.Operation,
      t = { s with builder := operations.foldl (fun b operation => (b.assign operation).2) s.builder }) ∨
    (¬ OperatorTable.isBuiltin operator ∧ Yields (callBinary env operator left right) s v t) := by
  unfold applyBinary at h
  split at h
  · exact .inl ⟨rfl, [.arithmetic .add left right], (yields_build.1 h).2⟩
  · exact .inl ⟨rfl, [.arithmetic .subtract left right], (yields_build.1 h).2⟩
  · exact .inl ⟨rfl, [.arithmetic .multiply left right], (yields_build.1 h).2⟩
  · obtain ⟨less, u, hless, h⟩ := yields_bind.1 h
    obtain ⟨rfl, rfl⟩ := yields_build.1 hless
    exact .inl ⟨rfl, [.compare .unorderedOrLess left right, .widen _], (yields_build.1 h).2⟩
  · rename_i hplus hminus htimes hless
    exact .inr ⟨OperatorTable.not_isBuiltin hassign hplus hminus htimes hless, h⟩

-- Everything below takes these functions apart by their equations.
attribute [local simp] expression expressions bindLocals bindParameters

/-- A condition is a test of its value. -/
theorem yields_condition {value v : ValueId} :
    Yields (condition value) s v t ↔
      v = (s.builder.test value).1 ∧ t = { s with builder := (s.builder.test value).2 } := by
  constructor
  · intro h; cases h; exact ⟨rfl, rfl⟩
  · rintro ⟨rfl, rfl⟩; rfl

/-- A new variable has the next slot. -/
theorem yields_allocate {name : String} {value : ValueId} {slot : SlotId} :
    Yields (allocate name value) s slot t ↔
      slot = ⟨s.builder.slots.length⟩ ∧
        t = { s with builder := s.builder.introduce name value } := by
  constructor
  · intro h; cases h; exact ⟨rfl, rfl⟩
  · rintro ⟨rfl, rfl⟩; rfl

/-- A number is a constant. -/
theorem yields_number {value : Float} {v : ValueId} :
    Yields (expression env (.number value)) s v t ↔
      v = (s.builder.assign (.constant value)).1 ∧
        t = { s with builder := (s.builder.assign (.constant value)).2 } := by
  simp only [expression, yields_build]

/-- A variable is loaded from the slot that its name stands for. -/
theorem yields_var {name : String} {v : ValueId} :
    Yields (expression env (.var name)) s v t ↔
      ∃ slot, s.scope.lookup name = some slot ∧ v = (s.builder.assign (.load slot)).1 ∧
        t = { s with builder := (s.builder.assign (.load slot)).2 } := by
  simp only [expression, yields_bind, yields_slotOf, yields_build, and_assoc, exists_and_left,
    exists_eq_left]

/-- A prefix operator is applied after its operand has been generated. -/
theorem yields_unary {operator : Char} {operand : Expr} {v : ValueId}
    (h : Yields (expression env (.unary operator operand)) s v t) :
    ∃ x u, Yields (expression env operand) s x u ∧
      env.arity? (Prototype.unaryName operator) = some 1 ∧
      v = (u.builder.call (Prototype.unaryName operator) [x]).1 ∧
      t = { u with
        builder := (u.builder.call (Prototype.unaryName operator) [x]).2
        declarations := env.require u.declarations (Prototype.unaryName operator) } := by
  simp only [expression, yields_bind] at h
  obtain ⟨x, u, hoperand, h⟩ := h
  exact ⟨x, u, hoperand, yields_callUnary h⟩

/-- A function is called after its arguments have been generated. -/
theorem yields_application {callee : String} {arguments : List Expr} {v : ValueId}
    (h : Yields (expression env (.call callee arguments)) s v t) :
    ∃ values u, Yields (expressions env arguments) s values u ∧
      env.arity? callee = some values.length ∧ v = (u.builder.call callee values).1 ∧
      t = { u with
        builder := (u.builder.call callee values).2
        declarations := env.require u.declarations callee } := by
  simp only [expression, yields_bind] at h
  obtain ⟨values, u, harguments, h⟩ := h
  exact ⟨values, u, harguments, yields_call h⟩

/-- An assignment generates its right side and stores it. -/
theorem yields_assignment {left right : Expr} {v : ValueId}
    (h : Yields (expression env (.binary '=' left right)) s v t) :
    ∃ name slot u, left = .var name ∧ Yields (expression env right) s v u ∧
      u.scope.lookup name = some slot ∧ t = { u with builder := u.builder.store slot v } := by
  simp only [expression, if_true] at h
  split at h
  · rename_i name
    simp only [yields_bind] at h
    obtain ⟨value, u, hright, slot, _, hslot, _, _, hemit, h⟩ := h
    obtain ⟨hlookup, hu⟩ := yields_slotOf.1 hslot
    obtain rfl := yields_emit.1 hemit
    obtain ⟨rfl, rfl⟩ := yields_pure.1 h
    exact ⟨name, slot, u, rfl, hright, hlookup, hu ▸ rfl⟩
  · exact (yields_throw.1 h).elim

/-- Any other binary operator is applied to its operands, the left one generated first. -/
theorem yields_binary {operator : Char} {left right : Expr} {v : ValueId} (hop : operator ≠ '=')
    (h : Yields (expression env (.binary operator left right)) s v t) :
    ∃ x a y b, Yields (expression env left) s x a ∧ Yields (expression env right) a y b ∧
      Yields (applyBinary env operator x y) b v t := by
  simp only [expression, if_neg hop, yields_bind] at h
  obtain ⟨x, a, hleft, y, b, hright, happly⟩ := h
  exact ⟨x, a, y, b, hleft, hright, happly⟩

/-- A conditional ends in the block where its branches meet. -/
theorem yields_conditional {test consequent alternative : Expr} {v : ValueId}
    (h : Yields (expression env (.conditional test consequent alternative)) s v t) :
    ∃ value tested x left y right,
      let checked := tested.builder.test value
      let n := checked.2.blocks.length
      let joined := ((right.builder.terminate (.branch ⟨n + 2⟩)).moveTo ⟨n + 2⟩).assign
        (.phi [(x, left.builder.current), (y, right.builder.current)])
      Yields (expression env test) s value tested ∧
      Yields (expression env consequent)
        { tested with
          builder := (checked.2.addBranches.terminate (.branchIf checked.1 ⟨n⟩ ⟨n + 1⟩)).moveTo ⟨n⟩ }
        x left ∧
      Yields (expression env alternative)
        { left with builder := (left.builder.terminate (.branch ⟨n + 2⟩)).moveTo ⟨n + 1⟩ }
        y right ∧
      v = joined.1 ∧ t = { right with builder := joined.2 } := by
  simp only [expression, yields_bind, yields_build, yields_emit, yields_get, yields_condition,
    and_assoc, exists_and_left, exists_eq_left, exists_const] at h
  obtain ⟨value, tested, htest, x, left, hleft, y, right, hright, rfl, rfl⟩ := h
  simp only [Builder.appendBlock, List.length_append, List.length_singleton] at hleft hright ⊢
  exact ⟨value, tested, x, left, y, right, htest, hleft, hright, rfl, rfl⟩

/-- A loop ends in the block behind it. Its variable has a slot before it is in scope. -/
theorem yields_loop {name : String} {start finish body : Expr} {step : Option Expr} {v : ValueId}
    (h : Yields (expression env (.loop name start finish step body)) s v t) :
    ∃ value started x a y b z c,
      let slot : SlotId := ⟨started.builder.slots.length⟩
      let introduced := started.builder.introduce name value
      let n := introduced.blocks.length
      let checked := c.builder.test z
      let left := ((checked.2.terminate (.branchIf checked.1 ⟨n⟩ ⟨n + 1⟩)).moveTo ⟨n + 1⟩).assign
        (.constant 0)
      Yields (expression env start) s value started ∧
      Yields (expression env body)
        { started with
          builder := (introduced.addLoop.terminate (.branch ⟨n⟩)).moveTo ⟨n⟩
          scope := started.scope.enter.bind name slot }
        x a ∧
      Yields (expressionOr env 1 step) a y b ∧
      Yields (expression env finish) { b with builder := b.builder.increase slot y } z c ∧
      v = left.1 ∧ t = { c with builder := left.2, scope := c.scope.exit } := by
  simp only [expression, yields_bind, yields_build, yields_emit, yields_condition,
    yields_allocate, yields_inScope, yields_bindName, and_assoc, exists_and_left, exists_eq_left,
    exists_const] at h
  obtain ⟨value, started, hstart, _, ⟨_, ⟨x, a, hbody, y, b, hstep, z, c, hfinish, rfl⟩, rfl⟩,
    rfl, rfl⟩ := h
  simp only [Builder.appendBlock, List.length_append, List.length_singleton] at hbody ⊢
  exact ⟨value, started, x, a, y, b, z, c, hstart, hbody, hstep, hfinish, rfl, rfl⟩

/-- Arguments are generated one after the other. -/
theorem yields_expressions_cons {first : Expr} {rest : List Expr} {values : List ValueId}
    (h : Yields (expressions env (first :: rest)) s values t) :
    ∃ x u xs, values = x :: xs ∧ Yields (expression env first) s x u ∧
      Yields (expressions env rest) u xs t := by
  simp only [expressions, yields_bind, yields_pure] at h
  obtain ⟨x, u, hfirst, xs, w, hrest, rfl, rfl⟩ := h
  exact ⟨x, u, xs, rfl, hfirst, hrest⟩

/-- There are as many values as arguments. -/
theorem Yields.length_expressions {arguments : List Expr} {values : List ValueId}
    (h : Yields (expressions env arguments) s values t) : values.length = arguments.length := by
  induction arguments generalizing s values with
  | nil => exact congrArg List.length (yields_pure.1 h).1
  | cons first rest ih =>
    obtain ⟨x, u, xs, rfl, -, hrest⟩ := yields_expressions_cons h
    exact congrArg Nat.succ (ih hrest)

/-- Local variables are in scope until the end of the construct. -/
theorem yields_locals {bindings : List (String × Option Expr)} {body : Expr} {v : ValueId}
    (h : Yields (expression env (.locals bindings body)) s v t) :
    ∃ bound u, Yields (bindLocals env bindings) { s with scope := s.scope.enter } () bound ∧
      Yields (expression env body) bound v u ∧ t = { u with scope := u.scope.exit } := by
  simp only [expression, yields_inScope, yields_bind] at h
  obtain ⟨u, ⟨_, bound, hbind, hbody⟩, rfl⟩ := h
  exact ⟨bound, u, hbind, hbody, rfl⟩

/-- Each local variable gets its value before it is in scope. -/
theorem yields_bindLocals_cons {name : String} {initial : Option Expr}
    {rest : List (String × Option Expr)}
    (h : Yields (bindLocals env ((name, initial) :: rest)) s () t) :
    ∃ value u, Yields (expressionOr env 0 initial) s value u ∧
      Yields (bindLocals env rest)
        { u with
          builder := u.builder.introduce name value
          scope := u.scope.bind name ⟨u.builder.slots.length⟩ } () t := by
  simp only [bindLocals, yields_bind, yields_allocate, yields_bindName] at h
  obtain ⟨value, u, hvalue, _, _, ⟨rfl, rfl⟩, _, _, rfl, hrest⟩ := h
  exact ⟨value, u, hvalue, hrest⟩

/-- Each parameter is copied into a slot of its own. -/
theorem yields_bindParameters_cons {index : Nat} {name : String} {rest : List String}
    (h : Yields (bindParameters index (name :: rest)) s () t) :
    Yields (bindParameters (index + 1) rest)
      { s with
        builder := s.builder.introduce name ⟨index⟩
        scope := s.scope.bind name ⟨s.builder.slots.length⟩ } () t := by
  simp only [bindParameters, yields_bind, yields_allocate, yields_bindName] at h
  obtain ⟨_, _, ⟨rfl, rfl⟩, _, _, rfl, hrest⟩ := h
  exact hrest

/-- A function binds its parameters, generates its body and returns the value. -/
theorem yields_function {body : Expr} (h : Yields (function env body) s () t) :
    ∃ bound v u, Yields (bindParameters 0 env.self.parameters) { s with scope := s.scope.enter } ()
        bound ∧
      Yields (expression env body) bound v u ∧
      t = { u with builder := u.builder.terminate (.ret v), scope := u.scope.exit } := by
  simp only [function, yields_bind, yields_inScope, yields_emit] at h
  obtain ⟨v, _, ⟨u, ⟨_, bound, hbind, hbody⟩, rfl⟩, rfl⟩ := h
  exact ⟨bound, v, u, hbind, hbody, rfl⟩

end Lowering

end Kaleidoscope
