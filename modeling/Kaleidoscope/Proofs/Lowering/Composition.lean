import Kaleidoscope.Proofs.Lowering.Steps
import Kaleidoscope.Proofs.Syntax.Induction

/-!
# What generation inherits from its steps

Generation is put together from a few steps: values and errors, changes of the builder, look-ups,
and names that are bound until a scope is left. What holds of the steps and is handed on from two
actions to their sequence therefore holds of the generation of every expression and of every
function.

The principle is stated for relations between generation in one surroundings and in another, so that
two runs can be compared with it. A property of a single run is a relation that ignores one side.
-/

namespace Kaleidoscope.Lowering

open Ssa (Builder SlotId ValueId)

/-- Relations between actions in two surroundings that hold of the steps and of whatever is put
together from related parts. What binds names in a scope that it does not leave is only `Loosely`
related, and `Related` once the scope is left. -/
structure Compositional (env env' : Surroundings)
    (Related Loosely : ∀ {α : Type}, Lowering α → Lowering α → Prop) : Prop where
  pure {α : Type} (a : α) : Related (pure a) (pure a)
  throw {α : Type} (e : CompileError) : Related (throw e : Lowering α) (throw e)
  build {α : Type} (f : Builder → α × Builder) : Related (build f) (build f)
  emit (f : Builder → Builder) : Related (emit f) (emit f)
  /-- Apart from look-ups, all that is read of the state is the builder. -/
  get {α : Type} {next next' : State → Lowering α} :
    (∀ s s', s.builder = s'.builder → Related (next s) (next' s')) →
      Related (get >>= next) (get >>= next')
  slotOf (name : String) : Related (slotOf name) (slotOf name)
  arityOf (callee : String) : Related (arityOf env callee) (arityOf env' callee)
  bind {α β : Type} {action action' : Lowering α} {next next' : α → Lowering β} :
    Related action action' → (∀ a, Related (next a) (next' a)) →
      Related (action >>= next) (action' >>= next')
  bindName (name : String) (slot : SlotId) : Loosely (bindName name slot) (bindName name slot)
  loosely {α : Type} {action action' : Lowering α} : Related action action' → Loosely action action'
  bindLoosely {α β : Type} {action action' : Lowering α} {next next' : α → Lowering β} :
    Loosely action action' → (∀ a, Loosely (next a) (next' a)) →
      Loosely (action >>= next) (action' >>= next')
  inScope {α : Type} {action action' : Lowering α} : Loosely action action' →
    Related (inScope action) (inScope action')

namespace Compositional

variable {env env' : Surroundings} {Related Loosely : ∀ {α : Type}, Lowering α → Lowering α → Prop}

/-- A call is a look-up and an instruction. -/
theorem call (h : Compositional env env' Related Loosely) (callee : String) (arguments : List ValueId) :
    Related (call env callee arguments) (call env' callee arguments) := by
  refine h.bind (h.arityOf callee) fun arity => ?_
  split
  · exact h.throw _
  · split
    · exact h.build _
    · exact h.throw _

/-- So is a prefix operator. -/
theorem callUnary (h : Compositional env env' Related Loosely) (operator : Char) (operand : ValueId) :
    Related (callUnary env operator operand) (callUnary env' operator operand) := by
  refine h.bind (h.arityOf _) fun arity => ?_
  split
  · exact h.throw _
  · split
    · exact h.build _
    · exact h.throw _

/-- So is a binary operator that is not built in. -/
theorem callBinary (h : Compositional env env' Related Loosely) (operator : Char)
    (left right : ValueId) :
    Related (callBinary env operator left right) (callBinary env' operator left right) := by
  refine h.bind (h.arityOf _) fun arity => ?_
  split
  · exact h.build _
  · exact h.throw _

/-- The built-in operators are instructions. -/
theorem applyBinary (h : Compositional env env' Related Loosely) (operator : Char)
    (left right : ValueId) :
    Related (applyBinary env operator left right) (applyBinary env' operator left right) := by
  unfold Lowering.applyBinary
  split
  · exact h.build _
  · exact h.build _
  · exact h.build _
  · exact h.bind (h.build _) fun _ => h.build _
  · exact h.callBinary operator left right

/-- A condition is two instructions. -/
theorem condition (h : Compositional env env' Related Loosely) (value : ValueId) :
    Related (condition value) (condition value) :=
  h.bind (h.build _) fun _ => h.build _

/-- A new variable is a slot and what is stored in it. -/
theorem allocate (h : Compositional env env' Related Loosely) (name : String) (value : ValueId) :
    Related (allocate name value) (allocate name value) :=
  h.bind (h.build _) fun _ => h.bind (h.emit _) fun _ => h.pure _

/-- Expressions in a row are put together from one another. -/
theorem expressions (h : Compositional env env' Related Loosely) {arguments : List Expr}
    (harguments : ∀ e ∈ arguments, Related (expression env e) (expression env' e)) :
    Related (expressions env arguments) (expressions env' arguments) := by
  induction arguments with
  | nil => exact h.pure _
  | cons first rest ih =>
    obtain ⟨hfirst, hrest⟩ := List.forall_mem_cons.1 harguments
    exact h.bind hfirst fun _ => h.bind (ih hrest) fun _ => h.pure _

/-- An optional part is an expression or a constant. -/
theorem expressionOr (h : Compositional env env' Related Loosely) {constant : Float}
    {e : Option Expr} (he : ∀ e' ∈ e, Related (expression env e') (expression env' e')) :
    Related (expressionOr env constant e) (expressionOr env' constant e) := by
  cases e with
  | none =>
    rw [Lowering.expressionOr, Lowering.expressionOr]
    exact h.build _
  | some e => exact he e rfl

/-- Local variables stay bound, so they are put together loosely. -/
theorem bindLocals (h : Compositional env env' Related Loosely)
    {bindings : List (String × Option Expr)}
    (hbindings : ∀ binding ∈ bindings, ∀ e ∈ binding.2,
      Related (expression env e) (expression env' e)) :
    Loosely (bindLocals env bindings) (bindLocals env' bindings) := by
  induction bindings with
  | nil => exact h.loosely (h.pure _)
  | cons binding rest ih =>
    obtain ⟨name, initial⟩ := binding
    obtain ⟨hfirst, hrest⟩ := List.forall_mem_cons.1 hbindings
    exact h.bindLoosely (h.loosely (h.expressionOr hfirst)) fun value =>
      h.bindLoosely (h.loosely (h.allocate name value)) fun slot =>
      h.bindLoosely (h.bindName name slot) fun _ => ih hrest

/-- So are parameters. -/
theorem bindParameters (h : Compositional env env' Related Loosely) (index : Nat)
    (names : List String) : Loosely (bindParameters index names) (bindParameters index names) := by
  induction names generalizing index with
  | nil => exact h.loosely (h.pure _)
  | cons name rest ih =>
    exact h.bindLoosely (h.loosely (h.allocate name _)) fun slot =>
      h.bindLoosely (h.bindName name slot) fun _ => ih (index + 1)

/-- An expression is put together from the steps. -/
theorem expression (h : Compositional env env' Related Loosely) (e : Expr) :
    Related (expression env e) (expression env' e) := by
  induction e with
  | number => exact h.build _
  | var name => exact h.bind (h.slotOf name) fun _ => h.build _
  | unary operator _ ih => exact h.bind ih fun _ => h.callUnary operator _
  | binary operator left right ihl ihr =>
    simp only [Lowering.expression]
    split
    · split
      · exact h.bind ihr fun _ => h.bind (h.slotOf _) fun _ => h.bind (h.emit _) fun _ => h.pure _
      · exact h.throw _
    · exact h.bind ihl fun _ => h.bind ihr fun _ => h.applyBinary operator _ _
  | call callee _ ih => exact h.bind (h.expressions ih) fun _ => h.call callee _
  | conditional _ _ _ ihc iht ihe =>
    refine h.bind ihc fun _ => h.bind (h.condition _) fun _ => h.bind (h.build _) fun _ =>
      h.bind (h.build _) fun _ => h.bind (h.build _) fun _ => h.bind (h.emit _) fun _ =>
      h.bind (h.emit _) fun _ => h.bind iht fun _ => h.get fun s s' hs => ?_
    rw [hs]
    refine h.bind (h.emit _) fun _ => h.bind (h.emit _) fun _ => h.bind ihe fun _ =>
      h.get fun t t' ht => ?_
    rw [ht]
    exact h.bind (h.emit _) fun _ => h.bind (h.emit _) fun _ => h.build _
  | loop name _ _ _ _ ihs ihf ihstep ihb =>
    refine h.bind ihs fun _ => h.bind (h.allocate name _) fun slot => h.bind (h.build _) fun _ =>
      h.bind (h.build _) fun _ => h.bind (h.emit _) fun _ => h.bind (h.emit _) fun _ =>
      h.bind (h.inScope ?_) fun _ => h.bind (h.emit _) fun _ => h.build _
    refine h.bindLoosely (h.bindName name slot) fun _ => h.loosely ?_
    exact h.bind ihb fun _ => h.bind (h.expressionOr ihstep) fun _ => h.bind (h.build _) fun _ =>
      h.bind (h.build _) fun _ => h.bind (h.emit _) fun _ => h.bind ihf fun _ =>
      h.bind (h.condition _) fun _ => h.emit _
  | locals _ _ ihs ihb =>
    exact h.inScope (h.bindLoosely (h.bindLocals ihs) fun _ => h.loosely ihb)

/-- So is a function, whose parameters are in scope in its body only. -/
theorem function (h : Compositional env env' Related Loosely) (hself : env.self = env'.self)
    (body : Expr) : Related (function env body) (function env' body) := by
  unfold Lowering.function
  rw [hself]
  exact h.bind (h.inScope (h.bindLoosely (h.bindParameters 0 _) fun _ =>
    h.loosely (h.expression body))) fun _ => h.emit _

end Compositional

end Kaleidoscope.Lowering
