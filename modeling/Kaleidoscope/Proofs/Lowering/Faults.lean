import Kaleidoscope.Proofs.Lowering.Declarations
import Kaleidoscope.Proofs.Lowering.Scopes
import Kaleidoscope.Proofs.Lowering.Validity

/-!
# Generation ends with the first fault

What stands in the tree decides how generation ends, wherever the same names are in scope: it fails
with the first of the faults, and an expression without any has code. Builder, slots and
declarations play no part in it. Two actions in a row come upon the faults of the first and then
upon those of the second, so the faults of a construct are put together as the construct is.
-/

namespace Kaleidoscope

open Ssa (Builder SlotId ValueId)

namespace Scope

variable {scope : Scope} {names : List String}

/-- These names are in scope and no others. -/
def Knows (scope : Scope) (names : List String) : Prop :=
  ∀ name, (scope.lookup name).isSome ↔ name ∈ names

/-- Nothing is in scope in the beginning. -/
theorem knows_empty : empty.Knows [] := fun _ => ⟨nofun, nofun⟩

/-- A name that is bound is in scope with those before it. -/
theorem Knows.bind (h : scope.Knows names) (name : String) (slot : SlotId) :
    (scope.bind name slot).Knows (name :: names) := by
  intro other
  rw [lookup, Scope.bind, Dictionary.lookup_insert, List.mem_cons]
  split
  · rename_i heq
    exact ⟨fun _ => .inl heq.symm, fun _ => rfl⟩
  · rename_i hne
    exact (h other).trans ⟨.inr, fun hmem => hmem.resolve_left fun heq => hne heq.symm⟩

/-- Nothing but the names themselves matters, in whichever order they have come. -/
theorem Knows.congr {others : List String} (h : scope.Knows names)
    (heq : ∀ name, name ∈ names ↔ name ∈ others) : scope.Knows others :=
  fun name => (h name).trans (heq name)

end Scope

namespace Lowering

variable {α β : Type} {env : Surroundings} {names : List String} {faults others : List CompileError}

/-- The error of a failure. -/
def fault? : Except CompileError α → Option CompileError
  | .ok _ => none
  | .error e => some e

/-- There is no error where there is a value. -/
theorem fault?_eq_none {result : Except CompileError α} :
    fault? result = none ↔ ∃ a, result = .ok a := by
  cases result with
  | ok a => exact ⟨fun _ => ⟨a, rfl⟩, fun _ => rfl⟩
  | error e => exact ⟨nofun, nofun⟩

/-- The error is that of the failure. -/
theorem fault?_eq_some {result : Except CompileError α} {e : CompileError} :
    fault? result = some e ↔ result = .error e := by
  cases result with
  | ok a => exact ⟨nofun, nofun⟩
  | error e' => exact ⟨fun h => congrArg Except.error (Option.some.inj h), fun h => by cases h; rfl⟩

/-- Wherever these names are in scope, the action fails with the first of the faults, or succeeds if
there is none. -/
def Finds (names : List String) (action : Lowering α) (faults : List CompileError) : Prop :=
  ∀ s, s.scope.Knows names → fault? (action.run.run s).1 = faults.head?

/-- The action succeeds and leaves the scopes as they are. -/
def Succeeds (action : Lowering α) : Prop := ∀ s, ∃ a t, Yields action s a t ∧ t.scope = s.scope

/-- Two actions in a row succeed if each of them does. -/
theorem Succeeds.bind {action : Lowering α} {next : α → Lowering β} (h : Succeeds action)
    (hnext : ∀ a, Succeeds (next a)) : Succeeds (action >>= next) := by
  intro s
  obtain ⟨a, t, haction, ht⟩ := h s
  obtain ⟨b, u, hyields, hu⟩ := hnext a t
  exact ⟨b, u, yields_bind.2 ⟨a, t, haction, hyields⟩, hu.trans ht⟩

/-- A value succeeds. -/
theorem succeeds_pure (a : α) : Succeeds (pure a) := fun s => ⟨a, s, rfl, rfl⟩

/-- So does looking at the state. -/
theorem succeeds_get : Succeeds (get : Lowering State) := fun s => ⟨s, s, rfl, rfl⟩

/-- So does what the builder computes. -/
theorem succeeds_build (f : Builder → α × Builder) : Succeeds (build f) :=
  fun _ => ⟨_, _, rfl, rfl⟩

/-- So does a change of the builder. -/
theorem succeeds_emit (f : Builder → Builder) : Succeeds (emit f) := fun _ => ⟨_, _, rfl, rfl⟩

/-- So does a condition. -/
theorem succeeds_condition (value : ValueId) : Succeeds (condition value) :=
  (succeeds_build _).bind fun _ => succeeds_build _

/-- So does a new variable. -/
theorem succeeds_allocate (name : String) (value : ValueId) : Succeeds (allocate name value) :=
  (succeeds_build _).bind fun _ => (succeeds_emit _).bind fun _ => succeeds_pure _

/-- What succeeds comes upon no fault. -/
theorem Succeeds.finds {action : Lowering α} (h : Succeeds action) : Finds names action [] := by
  intro s _
  obtain ⟨a, t, hyields, -⟩ := h s
  rw [hyields]
  rfl

/-- The faults of what comes first are come upon first. -/
theorem Finds.bind {action : Lowering α} {next : α → Lowering β} (h : Finds names action faults)
    (hkeeps : KeepsScope action)
    (hnext : ∀ s a t, Yields action s a t → Finds names (next a) others) :
    Finds names (action >>= next) (faults ++ others) := by
  intro s hs
  rw [run_bind, List.head?_append, ← h s hs]
  rcases hrun : action.run.run s with ⟨result, t⟩
  cases result with
  | error e => rfl
  | ok a => exact hnext s a t hrun t (Yields.scope_eq hrun hkeeps ▸ hs)

/-- What succeeds in any case adds nothing in front. -/
theorem Finds.skip {action : Lowering α} {next : α → Lowering β} (h : Succeeds action)
    (hnext : ∀ a, Finds names (next a) faults) : Finds names (action >>= next) faults := by
  intro s hs
  obtain ⟨a, t, hyields, hscope⟩ := h s
  rw [run_bind, hyields]
  exact hnext a t (hscope ▸ hs)

/-- Nor does it add anything behind. -/
theorem Finds.last {action : Lowering α} {next : α → Lowering β} (h : Finds names action faults)
    (hnext : ∀ a, Succeeds (next a)) : Finds names (action >>= next) faults := by
  intro s hs
  rw [run_bind, ← h s hs]
  rcases action.run.run s with ⟨result, t⟩
  cases result with
  | error e => rfl
  | ok a =>
    obtain ⟨b, u, hyields, -⟩ := hnext a t
    exact congrArg (fun run => fault? run.1) hyields

/-- A scope of its own has the faults of what is in it. -/
theorem Finds.inScope {action : Lowering α} (h : Finds names action faults) :
    Finds names (inScope action) faults := by
  intro s hs
  rw [run_inScope]
  exact h { s with scope := s.scope.enter } hs

/-- A name that is bound is in scope from then on. -/
theorem Finds.bindName {name : String} {next : Lowering α} (h : Finds (name :: names) next faults)
    (slot : SlotId) : Finds names (bindName name slot >>= fun _ => next) faults :=
  fun s hs => h { s with scope := s.scope.bind name slot } (hs.bind name slot)

/-- The order of the names makes no difference to the faults. -/
theorem Finds.congr {action : Lowering α} {names' : List String} (h : Finds names action faults)
    (heq : ∀ name, name ∈ names' ↔ name ∈ names) : Finds names' action faults :=
  fun s hs => h s (hs.congr heq)

/-- A failure comes upon itself. -/
theorem finds_throw (e : CompileError) (faults : List CompileError) :
    Finds names (throw e : Lowering α) (e :: faults) := fun _ _ => rfl

/-- A name comes upon being unknown. -/
theorem finds_slotOf (name : String) : Finds names (slotOf name) (variableFaults names name) := by
  intro s hs
  have hknown := hs name
  rw [run_slotOf, variableFaults]
  cases hlookup : s.scope.lookup name with
  | some slot =>
    rw [hlookup] at hknown
    rw [if_pos (hknown.1 rfl)]
    rfl
  | none =>
    rw [hlookup] at hknown
    rw [if_neg fun hmem => Bool.false_ne_true (hknown.2 hmem)]
    rfl

/-- Looking up a callee finds out its number of parameters. -/
theorem Finds.arityOf {callee : String} {next : Option Nat → Lowering α}
    (h : Finds names (next (env.arity? callee)) faults) :
    Finds names (arityOf env callee >>= next) faults := by
  intro s hs
  rw [run_bind, run_arityOf]
  exact h _ hs

/-- A call comes upon the faults of its callee. -/
theorem finds_call (callee : String) (arguments : List ValueId) :
    Finds names (call env callee arguments) (env.callFaults callee arguments.length) := by
  refine Finds.arityOf ?_
  rw [Surroundings.callFaults]
  cases env.arity? callee with
  | none => exact finds_throw _ _
  | some arity =>
    dsimp only
    split
    · exact (succeeds_build _).finds
    · exact finds_throw _ _

/-- So does a prefix operator. -/
theorem finds_callUnary (operator : Char) (operand : ValueId) :
    Finds names (callUnary env operator operand) (env.prefixFaults operator) := by
  refine Finds.arityOf ?_
  rw [Surroundings.prefixFaults]
  cases env.arity? (Prototype.unaryName operator) with
  | none => exact finds_throw _ _
  | some arity =>
    dsimp only
    split
    · exact (succeeds_build _).finds
    · exact finds_throw _ _

/-- An operator that is built in has no faults. Any other has to have a function behind it. -/
theorem finds_applyBinary {operator : Char} (hassign : operator ≠ '=') (left right : ValueId) :
    Finds names (applyBinary env operator left right) (env.binaryFaults operator) := by
  unfold applyBinary
  split
  · exact (succeeds_build _).finds
  · exact (succeeds_build _).finds
  · exact (succeeds_build _).finds
  · exact ((succeeds_build _).bind fun _ => succeeds_build _).finds
  · rename_i hplus hminus htimes hless
    have hbuiltin := OperatorTable.not_isBuiltin hassign hplus hminus htimes hless
    refine Finds.arityOf ?_
    by_cases harity : env.arity? (Prototype.binaryName operator) = some 2
    · rw [if_pos harity, Surroundings.binaryFaults, if_pos (.inr harity)]
      exact (succeeds_build _).finds
    · rw [if_neg harity, Surroundings.binaryFaults, if_neg (not_or.2 ⟨hbuiltin, harity⟩)]
      exact finds_throw _ _

/-- Expressions in a row come upon their faults in a row. -/
theorem finds_expressions {arguments : List Expr}
    (h : ∀ e ∈ arguments, Finds names (expression env e) (e.faults env names)) :
    Finds names (expressions env arguments) (Expr.argumentFaults env names arguments) := by
  induction arguments with
  | nil => exact (succeeds_pure _).finds
  | cons first rest ih =>
    obtain ⟨hfirst, hrest⟩ := List.forall_mem_cons.1 h
    exact hfirst.bind (keepsScope_expression env first) fun _ _ _ _ =>
      (ih hrest).last fun _ => succeeds_pure _

/-- An optional part comes upon the faults of its expression. -/
theorem finds_expressionOr {constant : Float} {e : Option Expr}
    (h : ∀ e' ∈ e, Finds names (expression env e') (e'.faults env names)) :
    Finds names (expressionOr env constant e) (Expr.partFaults env names e) := by
  cases e with
  | none =>
    rw [expressionOr]
    exact (succeeds_build _).finds
  | some e => exact h e rfl

/-- Behind local variables their names are in scope. -/
theorem Finds.bindLocals {bindings : List (String × Option Expr)} {next : Lowering α}
    (h : ∀ binding ∈ bindings, ∀ e ∈ binding.2, ∀ names,
      Finds names (expression env e) (e.faults env names))
    (hnext : Finds (inside bindings names) next faults) :
    Finds names (bindLocals env bindings >>= fun _ => next)
      (Expr.bindingFaults env names bindings ++ faults) := by
  induction bindings generalizing names with
  | nil => exact hnext
  | cons binding rest ih =>
    obtain ⟨name, initial⟩ := binding
    obtain ⟨hfirst, hrest⟩ := List.forall_mem_cons.1 h
    rw [inside_cons] at hnext
    simp only [Lowering.bindLocals, bind_assoc]
    rw [Expr.bindingFaults, List.append_assoc]
    exact (finds_expressionOr fun e he => hfirst e he names).bind
      (keepsScope_expressionOr env 0 initial) fun _ value _ _ =>
      Finds.skip (succeeds_allocate name value) fun slot => (ih hrest hnext).bindName slot

/-- Behind parameters their names are in scope, too. -/
theorem Finds.bindParameters {parameters : List String} {next : Lowering α}
    (hnext : Finds (parameters.reverse ++ names) next faults) (index : Nat) :
    Finds names (bindParameters index parameters >>= fun _ => next) faults := by
  induction parameters generalizing names index with
  | nil => exact hnext
  | cons name rest ih =>
    rw [List.reverse_cons, List.append_assoc, List.singleton_append] at hnext
    simp only [Lowering.bindParameters, bind_assoc]
    exact Finds.skip (succeeds_allocate name _) fun slot => (ih hnext (index + 1)).bindName slot

/-- Generating an expression ends with the first of its faults. -/
theorem finds_expression (env : Surroundings) (names : List String) (e : Expr) :
    Finds names (expression env e) (e.faults env names) := by
  have keeps := keepsScope_expression env
  induction e generalizing names with
  | number => exact (succeeds_build _).finds
  | var name => exact (finds_slotOf name).last fun _ => succeeds_build _
  | unary operator operand ih =>
    exact (ih names).bind (keeps operand) fun _ _ _ _ => finds_callUnary _ _
  | binary operator left right ihl ihr =>
    by_cases hassign : operator = '='
    · subst hassign
      cases left with
      | var name =>
        simp only [expression, Expr.faults, if_true]
        exact (ihr names).bind (keeps right) fun _ _ _ _ =>
          (finds_slotOf name).last fun _ => (succeeds_emit _).bind fun _ => succeeds_pure _
      | _ =>
        simp only [expression, Expr.faults, if_true]
        exact finds_throw _ _
    · simp only [expression, Expr.faults, if_neg hassign]
      exact (ihl names).bind (keeps left) fun _ _ _ _ => (ihr names).bind (keeps right)
        fun _ _ _ _ => finds_applyBinary hassign _ _
  | call callee arguments ih =>
    refine (finds_expressions fun e he => ih e he names).bind
      (keepsScope_expressions env arguments) fun _ values _ hvalues => ?_
    rw [← hvalues.length_expressions]
    exact finds_call callee values
  | conditional condition consequent alternative ihc iht ihe =>
    exact (ihc names).bind (keeps condition) fun _ _ _ _ => Finds.skip (succeeds_condition _) fun _ =>
      Finds.skip (succeeds_build _) fun _ => Finds.skip (succeeds_build _) fun _ =>
      Finds.skip (succeeds_build _) fun _ => Finds.skip (succeeds_emit _) fun _ =>
      Finds.skip (succeeds_emit _) fun _ => (iht names).bind (keeps consequent) fun _ _ _ _ =>
      Finds.skip succeeds_get fun _ => Finds.skip (succeeds_emit _) fun _ =>
      Finds.skip (succeeds_emit _) fun _ => (ihe names).last fun _ => succeeds_get.bind fun _ =>
      (succeeds_emit _).bind fun _ => (succeeds_emit _).bind fun _ => succeeds_build _
  | loop name start finish step body ihs ihf ihstep ihb =>
    refine (ihs names).bind (keeps start) fun _ _ _ _ => Finds.skip (succeeds_allocate _ _) fun slot =>
      Finds.skip (succeeds_build _) fun _ => Finds.skip (succeeds_build _) fun _ =>
      Finds.skip (succeeds_emit _) fun _ => Finds.skip (succeeds_emit _) fun _ =>
      (Finds.inScope (Finds.bindName ?_ slot)).last fun _ =>
      (succeeds_emit _).bind fun _ => succeeds_build _
    exact (ihb (name :: names)).bind (keeps body) fun _ _ _ _ =>
      (finds_expressionOr fun e he => ihstep e he (name :: names)).bind
        (keepsScope_expressionOr env 1 step) fun _ _ _ _ =>
      Finds.skip (succeeds_build _) fun _ => Finds.skip (succeeds_build _) fun _ =>
      Finds.skip (succeeds_emit _) fun _ => (ihf (name :: names)).last fun _ =>
      (succeeds_condition _).bind fun _ => succeeds_emit _
  | locals bindings body ihs ihb =>
    exact (Finds.bindLocals ihs (ihb (inside bindings names))).inScope

/-- The parameters of a function are in scope in its body. -/
theorem finds_function (env : Surroundings) (body : Expr) :
    Finds [] (function env body) (body.faults env env.self.parameters) := by
  have hbody : Finds (env.self.parameters.reverse ++ []) (expression env body)
      (body.faults env env.self.parameters) :=
    (finds_expression env env.self.parameters body).congr fun name => by
      rw [List.append_nil, List.mem_reverse]
  exact (Finds.bindParameters hbody 0).inScope.last fun _ => succeeds_emit _

end Lowering

/-- Generation fails with the first fault of the body. -/
theorem lower_eq_error_iff_head?_faults {env : Surroundings} {body : Expr} {e : CompileError} :
    lower env body = .error e ↔ (body.faults env env.self.parameters).head? = some e := by
  rw [lower_eq_error_iff, ← Lowering.finds_function env body (.start env.self) Scope.knows_empty,
    Lowering.fault?_eq_some]
  exact ⟨fun ⟨t, h⟩ => congrArg Prod.fst h, fun h => ⟨_, Prod.ext h rfl⟩⟩

/-- A function has code exactly if its body is valid behind its parameters, and generation fails
with the first fault of the body otherwise. A generated function brings along the declarations of
the callees that are looked up, in the order of the calls. -/
theorem lower_finds_first_fault (env : Surroundings) (body : Expr) :
    ((∃ lowered, lower env body = .ok lowered) ↔ body.Valid env env.self.parameters) ∧
      (∀ e, lower env body = .error e ↔ (body.faults env env.self.parameters).head? = some e) ∧
      ∀ lowered, lower env body = .ok lowered →
        lowered.declarations = body.callees.foldl env.require [] := by
  have hfinds := Lowering.finds_function env body (.start env.self) Scope.knows_empty
  refine ⟨?_, fun e => lower_eq_error_iff_head?_faults, fun lowered h => ?_⟩
  · rw [Expr.valid_iff_faults_eq_nil, ← List.head?_eq_none_iff, ← hfinds, Lowering.fault?_eq_none]
    constructor
    · rintro ⟨lowered, h⟩
      obtain ⟨t, hyields, -⟩ := lower_eq_ok_iff.1 h
      exact ⟨(), congrArg Prod.fst hyields⟩
    · rintro ⟨⟨⟩, h⟩
      exact ⟨_, lower_eq_ok_iff.2 ⟨_, Prod.ext h rfl, rfl⟩⟩
  · obtain ⟨t, hyields, rfl⟩ := lower_eq_ok_iff.1 h
    exact Lowering.requires_function body _ _ t hyields

-- The body of a loop is generated before its test.
example (env : Surroundings) :
    (Expr.loop "i" (.number 1) (.var "n") none (.var "m")).faults env [] =
      [.unknown .variable "m", .unknown .variable "n"] := rfl

end Kaleidoscope
