import Kaleidoscope.Proofs.Lowering.Composition

/-!
# What generation depends on

Of everything that surrounds a function, its code depends on nothing but how many parameters each
callee has. Whether a callee is found in the program or among the signatures makes a difference to
the declarations that the function brings along, and to nothing else.
-/

namespace Kaleidoscope

namespace Lowering

variable {α β : Type} {env env' : Surroundings}

/-- The states differ in the declarations at most. -/
structure State.Alike (s s' : State) : Prop where
  builder : s.builder = s'.builder
  scope : s.scope = s'.scope

/-- Both actions do the same, apart from the declarations. -/
def Alike (action action' : Lowering α) : Prop :=
  ∀ s s', s.Alike s' → (action.run.run s).1 = (action'.run.run s').1 ∧
    (action.run.run s).2.Alike (action'.run.run s').2

/-- Two actions in a row do the same if each of them does. -/
theorem Alike.bind {action action' : Lowering α} {next next' : α → Lowering β}
    (h : Alike action action') (hnext : ∀ a, Alike (next a) (next' a)) :
    Alike (action >>= next) (action' >>= next') := by
  intro s s' hs
  have haction := h s s' hs
  rw [run_bind, run_bind]
  rcases hrun : action.run.run s with ⟨result, t⟩
  rcases hrun' : action'.run.run s' with ⟨result', t'⟩
  rw [hrun, hrun'] at haction
  obtain ⟨hresult, hstate⟩ := haction
  obtain rfl : result = result' := hresult
  cases result with
  | error e => exact ⟨rfl, hstate⟩
  | ok a => exact hnext a t t' hstate

/-- A scope of their own makes no difference. -/
theorem Alike.inScope {action action' : Lowering α} (h : Alike action action') :
    Alike (inScope action) (inScope action') := by
  intro s s' hs
  rw [run_inScope, run_inScope]
  obtain ⟨hresult, hstate⟩ := h { s with scope := s.scope.enter } { s' with scope := s'.scope.enter }
    ⟨hs.builder, congrArg Scope.enter hs.scope⟩
  exact ⟨hresult, hstate.builder, congrArg Scope.exit hstate.scope⟩

/-- What is known of a callee is its number of parameters, apart from the declarations. -/
theorem alike_arityOf {callee : String} (h : env.arity? callee = env'.arity? callee) :
    Alike (arityOf env callee) (arityOf env' callee) := by
  intro s s' hs
  rw [run_arityOf, run_arityOf, h]
  exact ⟨rfl, hs.builder, hs.scope⟩

/-- A name stands for the same slot. -/
theorem alike_slotOf (name : String) : Alike (slotOf name) (slotOf name) := by
  intro s s' hs
  rw [run_slotOf, run_slotOf, hs.scope]
  cases s'.scope.lookup name with
  | some slot => exact ⟨rfl, hs⟩
  | none => exact ⟨rfl, hs⟩

/-- Whatever is put together from actions that do the same does the same. -/
theorem compositional_alike (h : ∀ callee, env.arity? callee = env'.arity? callee) :
    Compositional env env' Alike Alike where
  pure _ _ _ hs := ⟨rfl, hs⟩
  throw _ _ _ hs := ⟨rfl, hs⟩
  build f _ _ hs :=
    ⟨congrArg (fun b => Except.ok (f b).1) hs.builder, congrArg (fun b => (f b).2) hs.builder, hs.scope⟩
  emit f _ _ hs := ⟨rfl, congrArg f hs.builder, hs.scope⟩
  get hnext s s' hs := hnext s s' hs.builder s s' hs
  slotOf := alike_slotOf
  arityOf callee := alike_arityOf (h callee)
  bind haction hnext := haction.bind hnext
  bindName name slot _ _ hs :=
    ⟨rfl, hs.builder, congrArg (fun scope => scope.bind name slot) hs.scope⟩
  loosely haction := haction
  bindLoosely haction hnext := haction.bind hnext
  inScope haction := haction.inScope

end Lowering

/-- A function comes to the same code or the same error wherever its callees have as many
parameters. -/
theorem lower_eq_of_arity?_eq {env env' : Surroundings} (hself : env.self = env'.self)
    (h : ∀ callee, env.arity? callee = env'.arity? callee) (body : Expr) :
    (lower env body).map Lowered.function = (lower env' body).map Lowered.function := by
  have halike := (Lowering.compositional_alike h).function hself body (.start env.self)
    (.start env'.self) (hself ▸ ⟨rfl, rfl⟩)
  unfold lower
  rcases hrun : (Lowering.function env body).run.run (.start env.self) with ⟨result, t⟩
  rcases hrun' : (Lowering.function env' body).run.run (.start env'.self) with ⟨result', t'⟩
  rw [hrun, hrun'] at halike
  obtain ⟨hresult, hstate⟩ := halike
  obtain rfl : result = result' := hresult
  cases result with
  | error e => rfl
  | ok a =>
    have hfinish : t.builder.finish = t'.builder.finish := congrArg Ssa.Builder.finish hstate.builder
    simp only [hfinish]
    cases t'.builder.finish with
    | error e => rfl
    | ok f => rfl

end Kaleidoscope
