import Kaleidoscope.Proofs.Lowering.Composition
import Kaleidoscope.Proofs.Scope.Frames

/-!
# Generation leaves the scopes as it found them

Whatever a construct binds it takes back, also when its generation fails somewhere inside: all that
it does stays inside the scopes that it enters.
-/

namespace Kaleidoscope

namespace Lowering

open Ssa (Builder SlotId ValueId)
open Scope (Inside)

variable {α β : Type} {env : Surroundings}

/-- The scopes afterwards are those before, whether the action succeeds or fails. -/
def KeepsScope (action : Lowering α) : Prop := ∀ s, (action.run.run s).2.scope = s.scope

/-- Names are bound in the innermost scope at most, whether the action succeeds or fails. -/
def StaysInside (action : Lowering α) : Prop :=
  ∀ outer s, Inside outer s.scope → Inside outer (action.run.run s).2.scope

/-- Two actions in a row keep the scopes if each of them does. -/
theorem KeepsScope.bind {action : Lowering α} {next : α → Lowering β} (h : KeepsScope action)
    (hnext : ∀ a, KeepsScope (next a)) : KeepsScope (action >>= next) := by
  intro s
  have hs := h s
  rw [run_bind]
  rcases hrun : action.run.run s with ⟨result, t⟩
  rw [hrun] at hs
  cases result with
  | error e => exact hs
  | ok a => exact (hnext a t).trans hs

/-- Two actions in a row stay inside the scopes if each of them does. -/
theorem StaysInside.bind {action : Lowering α} {next : α → Lowering β} (h : StaysInside action)
    (hnext : ∀ a, StaysInside (next a)) : StaysInside (action >>= next) := by
  intro outer s hinside
  have hs := h outer s hinside
  rw [run_bind]
  rcases hrun : action.run.run s with ⟨result, t⟩
  rw [hrun] at hs
  cases result with
  | error e => exact hs
  | ok a => exact hnext a outer t hs

/-- Keeping the scopes is a way of staying inside. -/
theorem KeepsScope.staysInside {action : Lowering α} (h : KeepsScope action) :
    StaysInside action :=
  fun _ s hinside => (h s).symm ▸ hinside

/-- What is bound in a scope of its own is gone afterwards. -/
theorem StaysInside.inScope {action : Lowering α} (h : StaysInside action) :
    KeepsScope (inScope action) := by
  intro s
  rw [run_inScope]
  exact (h s.scope { s with scope := s.scope.enter } s.scope.inside_enter).exit

/-- Whatever is put together from actions that keep the scopes, or that bind names in a scope which
is left, keeps the scopes. -/
theorem compositional_keepsScope (env : Surroundings) :
    Compositional env env (fun action _ => KeepsScope action) (fun action _ => StaysInside action) where
  pure _ _ := rfl
  throw _ _ := rfl
  build _ _ := rfl
  emit _ _ := rfl
  get h s := h s s rfl s
  slotOf name s := by
    rw [run_slotOf]
    cases s.scope.lookup name with
    | some slot => rfl
    | none => rfl
  arityOf callee s := by rw [run_arityOf]
  bind h hnext := h.bind hnext
  bindName name slot _ _ hinside := hinside.bind name slot
  loosely h := h.staysInside
  bindLoosely h hnext := h.bind hnext
  inScope h := h.inScope

/-- Every construct leaves the scopes as they were, entry for entry. -/
theorem keepsScope_expression (env : Surroundings) (e : Expr) : KeepsScope (expression env e) :=
  (compositional_keepsScope env).expression e

/-- So do expressions in a row. -/
theorem keepsScope_expressions (env : Surroundings) (arguments : List Expr) :
    KeepsScope (expressions env arguments) :=
  (compositional_keepsScope env).expressions fun e _ => keepsScope_expression env e

/-- So does an optional part. -/
theorem keepsScope_expressionOr (env : Surroundings) (constant : Float) (e : Option Expr) :
    KeepsScope (expressionOr env constant e) :=
  (compositional_keepsScope env).expressionOr fun e' _ => keepsScope_expression env e'

/-- The parameters of a function are gone behind its body. -/
theorem keepsScope_function (env : Surroundings) (body : Expr) : KeepsScope (function env body) :=
  (compositional_keepsScope env).function rfl body

/-- What a name stands for is decided by the scopes alone. -/
theorem run_slotOf_congr (name : String) {s t : State} (h : t.scope = s.scope) :
    ((slotOf name).run.run t).1 = ((slotOf name).run.run s).1 := by
  rw [run_slotOf, run_slotOf, h]
  cases s.scope.lookup name with
  | some slot => rfl
  | none => rfl

/-- Whether an expression is generated or its generation fails, at whatever depth, the scopes are as
they were, and every name stands for what it stood for. When a function has been generated or has
failed, no variable is in scope. -/
theorem generation_restores_scopes (env : Surroundings) :
    (∀ e s, ((expression env e).run.run s).2.scope = s.scope ∧
      ∀ name, ((slotOf name).run.run ((expression env e).run.run s).2).1 =
        ((slotOf name).run.run s).1) ∧
    ∀ body, ((function env body).run.run (.start env.self)).2.scope = .empty :=
  ⟨fun e s => ⟨keepsScope_expression env e s,
    fun name => run_slotOf_congr name (keepsScope_expression env e s)⟩,
    fun body => keepsScope_function env body (.start env.self)⟩

/-- The scopes after successful generation are those before. -/
theorem Yields.scope_eq {action : Lowering α} {s t : State} {a : α} (h : Yields action s a t)
    (hkeeps : KeepsScope action) : t.scope = s.scope := by
  rw [← hkeeps s, h]

end Lowering

end Kaleidoscope
