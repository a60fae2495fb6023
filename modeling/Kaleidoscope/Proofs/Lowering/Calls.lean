import Kaleidoscope.Proofs.Lowering.Declarations
import Kaleidoscope.Proofs.Parser.Callees

/-!
# The calls in generated code

A call is generated only for a callee whose number of parameters is known, and on as many arguments.
The callee is the function itself, a function of the program, or one that is declared before the
function is stored. What is said of the instructions is also said of the tree: every node that is
generated as a call has as many operands as its callee has parameters.
-/

namespace Kaleidoscope

open Ssa (Block BlockId Builder Instruction Operation SlotId Terminator ValueId)

/-- An instruction of the blocks calls the function of that name on `n` arguments. -/
def Ssa.CallsIn (blocks : List Block) (callee : String) (n : Nat) : Prop :=
  ∃ block ∈ blocks, ∃ target arguments,
    .call target callee arguments ∈ block.instructions ∧ arguments.length = n

/-- An instruction of the function calls the function of that name on `n` arguments. -/
def Ssa.Function.Calls (f : Ssa.Function) (callee : String) (n : Nat) : Prop :=
  ∃ body ∈ f.body, CallsIn body.blocks callee n

/-- Is the instruction a call of the function of that name on `n` arguments? -/
def Ssa.Instruction.calls (callee : String) (n : Nat) : Instruction → Bool
  | .call _ other arguments => other = callee && arguments.length = n
  | _ => false

/-- Whether an instruction is such a call is seen from its parts. -/
theorem Ssa.Instruction.calls_iff {instruction : Instruction} {callee : String} {n : Nat} :
    instruction.calls callee n ↔
      ∃ target arguments, instruction = .call target callee arguments ∧ arguments.length = n := by
  cases instruction with
  | call target other arguments =>
    simp only [calls, Bool.and_eq_true, decide_eq_true_eq]
    constructor
    · rintro ⟨rfl, hlength⟩
      exact ⟨target, arguments, rfl, hlength⟩
    · rintro ⟨_, _, heq, hlength⟩
      cases heq
      exact ⟨rfl, hlength⟩
  | _ => exact ⟨nofun, nofun⟩

/-- Calls are found by looking through the instructions. -/
theorem Ssa.callsIn_iff {blocks : List Block} {callee : String} {n : Nat} :
    CallsIn blocks callee n ↔
      ∃ block ∈ blocks, ∃ instruction ∈ block.instructions, instruction.calls callee n := by
  constructor
  · rintro ⟨block, hmem, target, arguments, hcall, hlength⟩
    exact ⟨block, hmem, _, hcall, Instruction.calls_iff.2 ⟨target, arguments, rfl, hlength⟩⟩
  · rintro ⟨block, hmem, instruction, hcall, hcalls⟩
    obtain ⟨target, arguments, rfl, hlength⟩ := Instruction.calls_iff.1 hcalls
    exact ⟨block, hmem, target, arguments, hcall, hlength⟩

instance (f : Ssa.Function) (callee : String) (n : Nat) : Decidable (f.Calls callee n) :=
  decidable_of_iff (∃ body ∈ f.body, ∃ block ∈ body.blocks, ∃ instruction ∈ block.instructions,
    instruction.calls callee n) (by simp only [Ssa.Function.Calls, Ssa.callsIn_iff])

namespace Ssa.Builder

variable {b : Builder} {callee : String} {n : Nat}

/-- An instruction adds its own call at most. -/
theorem callsIn_append {instruction : Instruction}
    (h : CallsIn (b.append instruction).blocks callee n) :
    CallsIn b.blocks callee n ∨
      ∃ target arguments, instruction = .call target callee arguments ∧ arguments.length = n := by
  obtain ⟨block, hmem, target, arguments, hcall, hlength⟩ := h
  obtain ⟨i, hi⟩ := List.mem_iff_getElem?.1 hmem
  rw [append_blocks] at hi
  split at hi
  · obtain ⟨before, hbefore, rfl⟩ := Option.map_eq_some_iff.1 hi
    rcases List.mem_append.1 hcall with hcall | hcall
    · exact .inl ⟨before, List.mem_of_getElem? hbefore, target, arguments, hcall, hlength⟩
    · exact .inr ⟨target, arguments, (List.mem_singleton.1 hcall).symm, hlength⟩
  · exact .inl ⟨block, List.mem_of_getElem? hi, target, arguments, hcall, hlength⟩

/-- A terminator adds no call. -/
theorem callsIn_terminate {terminator : Terminator}
    (h : CallsIn (b.terminate terminator).blocks callee n) : CallsIn b.blocks callee n := by
  obtain ⟨block, hmem, target, arguments, hcall, hlength⟩ := h
  obtain ⟨i, hi⟩ := List.mem_iff_getElem?.1 hmem
  rw [terminate_blocks] at hi
  split at hi
  · obtain ⟨before, hbefore, rfl⟩ := Option.map_eq_some_iff.1 hi
    exact ⟨before, List.mem_of_getElem? hbefore, target, arguments, hcall, hlength⟩
  · exact ⟨block, List.mem_of_getElem? hi, target, arguments, hcall, hlength⟩

/-- Nor does going on in another block. -/
theorem callsIn_enter {terminator : Terminator} {block : BlockId}
    (h : CallsIn ((b.terminate terminator).moveTo block).blocks callee n) :
    CallsIn b.blocks callee n :=
  callsIn_terminate h

/-- An empty block adds no call. -/
theorem callsIn_appendBlock {label : String}
    (h : CallsIn (b.appendBlock label).2.blocks callee n) : CallsIn b.blocks callee n := by
  obtain ⟨block, hmem, target, arguments, hcall, hlength⟩ := h
  rcases List.mem_append.1 hmem with hmem | hmem
  · exact ⟨block, hmem, target, arguments, hcall, hlength⟩
  · obtain rfl := List.mem_singleton.1 hmem
    cases hcall

/-- Only a call adds a call. -/
theorem callsIn_assign {operation : Operation} (h : CallsIn (b.assign operation).2.blocks callee n) :
    CallsIn b.blocks callee n :=
  (callsIn_append h).resolve_right nofun

/-- Nor does a value that is stored. -/
theorem callsIn_store {slot : SlotId} {value : ValueId}
    (h : CallsIn (b.store slot value).blocks callee n) : CallsIn b.blocks callee n :=
  (callsIn_append h).resolve_right nofun

/-- Nor do several operations in a row. -/
theorem callsIn_foldl_assign {operations : List Operation} {b : Builder}
    (h : CallsIn (operations.foldl (fun b operation => (b.assign operation).2) b).blocks callee n) :
    CallsIn b.blocks callee n := by
  induction operations generalizing b with
  | nil => exact h
  | cons operation operations ih => exact callsIn_assign (ih h)

/-- Nor does a condition. -/
theorem callsIn_test {value : ValueId} (h : CallsIn (b.test value).2.blocks callee n) :
    CallsIn b.blocks callee n :=
  callsIn_assign (callsIn_assign h)

/-- Nor does a new variable. -/
theorem callsIn_introduce {name : String} {value : ValueId}
    (h : CallsIn (b.introduce name value).blocks callee n) : CallsIn b.blocks callee n :=
  callsIn_store h

/-- Nor do the blocks of a conditional. -/
theorem callsIn_addBranches (h : CallsIn b.addBranches.blocks callee n) : CallsIn b.blocks callee n :=
  callsIn_appendBlock (callsIn_appendBlock (callsIn_appendBlock h))

/-- Nor do the blocks of a loop. -/
theorem callsIn_addLoop (h : CallsIn b.addLoop.blocks callee n) : CallsIn b.blocks callee n :=
  callsIn_appendBlock (callsIn_appendBlock h)

/-- Nor does a variable that is increased. -/
theorem callsIn_increase {slot : SlotId} {increment : ValueId}
    (h : CallsIn (b.increase slot increment).blocks callee n) : CallsIn b.blocks callee n :=
  callsIn_assign (callsIn_assign (callsIn_store h))

end Ssa.Builder

/-- If the node means a call, the callee may have as many parameters as there are operands. -/
def Expr.Fits (arity : String → Nat → Prop) : Expr → Prop
  | unary operator _ => arity (Prototype.unaryName operator) 1
  | binary operator _ _ =>
    OperatorTable.isBuiltin operator ∨ arity (Prototype.binaryName operator) 2
  | call callee arguments => arity callee arguments.length
  | _ => True

/-- The number of parameters of a callee is known. -/
def Surroundings.HasArity (env : Surroundings) (callee : String) (n : Nat) : Prop :=
  env.arity? callee = some n

namespace Lowering

open Ssa.Builder (callsIn_addBranches callsIn_addLoop callsIn_append callsIn_assign callsIn_enter
  callsIn_foldl_assign callsIn_increase callsIn_introduce callsIn_store callsIn_terminate callsIn_test)

variable {env : Surroundings} {s t : State} {callee : String}

/-- The callee will be there when the function is stored. -/
def Provided (env : Surroundings) (s : State) (callee : String) : Prop :=
  callee = env.self.name ∨ (env.program.find? callee).isSome ∨ ∃ p ∈ s.declarations, p.name = callee

/-- What holds of the calls and of the declarations while a function is generated. -/
structure Linked (env : Surroundings) (s : State) : Prop where
  arity : ∀ {callee n}, Ssa.CallsIn s.builder.blocks callee n → env.arity? callee = some n
  named : ∀ {callee n}, Ssa.CallsIn s.builder.blocks callee n → callee ≠ Prototype.anonymousName
  provided : ∀ {callee n}, Ssa.CallsIn s.builder.blocks callee n → Provided env s callee
  declared : ∀ p ∈ s.declarations,
    env.prototypes.lookup p.name = some p ∧ p.name ≠ Prototype.anonymousName

/-- Nothing is called in the beginning. -/
theorem linked_start (env : Surroundings) : Linked env (.start env.self) := by
  have hnone {callee n} : ¬ Ssa.CallsIn (State.start env.self).builder.blocks callee n := by
    rintro ⟨block, hmem, target, arguments, hcall, -⟩
    obtain rfl := List.mem_singleton.1 hmem
    cases hcall
  exact ⟨fun h => (hnone h).elim, fun h => (hnone h).elim, fun h => (hnone h).elim, nofun⟩

/-- A change that adds neither a call nor a declaration. -/
theorem Linked.of_calls (h : Linked env s) (hdeclarations : t.declarations = s.declarations)
    (hcalls : ∀ {callee n}, Ssa.CallsIn t.builder.blocks callee n →
      Ssa.CallsIn s.builder.blocks callee n) : Linked env t where
  arity hcall := h.arity (hcalls hcall)
  named hcall := h.named (hcalls hcall)
  provided hcall := (h.provided (hcalls hcall)).imp_right fun hother =>
    hother.imp_right fun hdeclared => hdeclarations.symm ▸ hdeclared
  declared := hdeclarations.symm ▸ h.declared

/-- What is provided stays provided when another callee is looked up. -/
theorem Provided.require {other : String} (h : Provided env s other) (callee : String) (b : Builder) :
    Provided env
      { s with builder := b, declarations := env.require s.declarations callee } other := by
  refine h.imp_right fun hother => hother.imp_right ?_
  rintro ⟨p, hmem, hname⟩
  exact ⟨p, env.subset_require s.declarations callee hmem, hname⟩

/-- Once its number of parameters has been looked up, a callee is provided. -/
theorem provided_require (hkeyed : env.Keyed) {n : Nat} (harity : env.arity? callee = some n)
    (s : State) (b : Builder) :
    Provided env
      { s with builder := b, declarations := env.require s.declarations callee } callee := by
  cases honly : env.onlySigned? callee with
  | none => exact (Surroundings.known_of_onlySigned?_eq_none honly harity).imp_right .inl
  | some p =>
    obtain ⟨q, hmem, hname⟩ := Surroundings.exists_mem_require honly s.declarations
    exact .inr (.inr ⟨q, hmem, hname.trans (hkeyed.name_of_onlySigned? honly)⟩)

/-- A call that is generated fits its callee, and its callee is provided. -/
theorem Linked.call (h : Linked env s) (hkeyed : env.Keyed)
    (hnamed : callee ≠ Prototype.anonymousName) {arguments : List ValueId}
    (harity : env.arity? callee = some arguments.length) :
    Linked env { s with
      builder := (s.builder.call callee arguments).2
      declarations := env.require s.declarations callee } := by
  have hcalls {callee' n} (hcall : Ssa.CallsIn (s.builder.call callee arguments).2.blocks callee' n) :
      Ssa.CallsIn s.builder.blocks callee' n ∨ callee' = callee ∧ n = arguments.length := by
    rcases callsIn_append hcall with hcall | ⟨_, _, heq, hlength⟩
    · exact .inl hcall
    · cases heq
      exact .inr ⟨rfl, hlength.symm⟩
  refine ⟨fun hcall => ?_, fun hcall => ?_, fun hcall => ?_, fun p hmem => ?_⟩
  · rcases hcalls hcall with hcall | ⟨rfl, rfl⟩
    · exact h.arity hcall
    · exact harity
  · rcases hcalls hcall with hcall | ⟨rfl, rfl⟩
    · exact h.named hcall
    · exact hnamed
  · rcases hcalls hcall with hcall | ⟨rfl, rfl⟩
    · exact (h.provided hcall).require _ _
    · exact provided_require hkeyed harity s _
  · rcases Surroundings.mem_require hmem with hmem | honly
    · exact h.declared p hmem
    · have hname := hkeyed.name_of_onlySigned? honly
      rw [hname]
      exact ⟨Surroundings.lookup_of_onlySigned? honly, hnamed⟩

/-- If the action succeeds, calls and declarations are as they should be, and so are the operands of
the nodes. -/
def Links {α : Type} (env : Surroundings) (action : Lowering α) (fits : Prop) : Prop :=
  ∀ s a t, Linked env s → Yields action s a t → Linked env t ∧ fits

/-- Before the action there may be changes that add neither a call nor a declaration. -/
theorem Links.after {α : Type} {action : Lowering α} {fits : Prop} {u : State} {a : α}
    (h : Links env action fits) (hs : Linked env s) (hyields : Yields action u a t)
    (hdeclarations : u.declarations = s.declarations)
    (hcalls : ∀ {callee n}, Ssa.CallsIn u.builder.blocks callee n →
      Ssa.CallsIn s.builder.blocks callee n) : Linked env t ∧ fits :=
  h u a t (hs.of_calls hdeclarations hcalls) hyields

/-- An operator that is not built in is called on its two operands. -/
theorem links_applyBinary (hkeyed : env.Keyed) {operator : Char} (hassign : operator ≠ '=')
    (left right : ValueId) :
    Links env (applyBinary env operator left right)
      (OperatorTable.isBuiltin operator ∨ env.HasArity (Prototype.binaryName operator) 2) := by
  intro s v t hs hyields
  rcases yields_applyBinary hassign hyields with ⟨hbuiltin, operations, rfl⟩ | ⟨-, hyields⟩
  · exact ⟨hs.of_calls rfl callsIn_foldl_assign, .inl hbuiltin⟩
  · obtain ⟨harity, -, rfl⟩ := yields_callBinary hyields
    have hnamed := (Prototype.anonymousName_ne operator).symm
    exact ⟨@Linked.call _ _ _ hs hkeyed hnamed [left, right] harity, .inr harity⟩

/-- Expressions in a row. -/
theorem links_expressions {arguments : List Expr} {P : Expr → Prop}
    (h : ∀ e ∈ arguments, Links env (expression env e) (P e)) :
    Links env (expressions env arguments) (∀ e ∈ arguments, P e) := by
  induction arguments with
  | nil =>
    intro s values t hs hyields
    obtain ⟨-, rfl⟩ := yields_pure.1 hyields
    exact ⟨hs, nofun⟩
  | cons first rest ih =>
    intro s values t hs hyields
    obtain ⟨hfirst, hrest⟩ := List.forall_mem_cons.1 h
    obtain ⟨x, u, xs, -, hx, hxs⟩ := yields_expressions_cons hyields
    obtain ⟨hu, hfits⟩ := hfirst s x u hs hx
    obtain ⟨ht, hfitsRest⟩ := ih hrest u xs t hu hxs
    exact ⟨ht, List.forall_mem_cons.2 ⟨hfits, hfitsRest⟩⟩

/-- An optional part. -/
theorem links_expressionOr {constant : Float} {e : Option Expr} {P : Expr → Prop}
    (h : ∀ e' ∈ e, Links env (expression env e') (P e')) :
    Links env (expressionOr env constant e) (∀ e' ∈ e, P e') := by
  cases e with
  | none =>
    intro s v t hs hyields
    rw [expressionOr] at hyields
    obtain ⟨-, rfl⟩ := yields_build.1 hyields
    refine ⟨hs.of_calls rfl callsIn_assign, fun e' he' => ?_⟩
    cases he'
  | some e =>
    intro s v t hs hyields
    refine (h e rfl s v t hs hyields).imp_right fun hfits e' he' => ?_
    obtain rfl := Option.mem_some_iff.1 he'
    exact hfits

/-- Local variables. -/
theorem links_bindLocals {bindings : List (String × Option Expr)} {P : Expr → Prop}
    (h : ∀ binding ∈ bindings, ∀ e ∈ binding.2, Links env (expression env e) (P e)) :
    Links env (bindLocals env bindings) (∀ binding ∈ bindings, ∀ e ∈ binding.2, P e) := by
  induction bindings with
  | nil =>
    intro s _ t hs hyields
    obtain ⟨-, rfl⟩ := yields_pure.1 hyields
    exact ⟨hs, nofun⟩
  | cons binding rest ih =>
    intro s _ t hs hyields
    obtain ⟨name, initial⟩ := binding
    obtain ⟨hfirst, hrest⟩ := List.forall_mem_cons.1 h
    obtain ⟨value, u, hvalue, hrun⟩ := yields_bindLocals_cons hyields
    obtain ⟨hu, hfits⟩ := links_expressionOr hfirst s value u hs hvalue
    obtain ⟨ht, hfitsRest⟩ := (ih hrest).after hu hrun rfl callsIn_introduce
    exact ⟨ht, List.forall_mem_cons.2 ⟨hfits, hfitsRest⟩⟩

/-- Parameters. -/
theorem links_bindParameters (index : Nat) (names : List String) :
    Links env (bindParameters index names) True := by
  induction names generalizing index with
  | nil =>
    intro s _ t hs hyields
    obtain ⟨-, rfl⟩ := yields_pure.1 hyields
    exact ⟨hs, trivial⟩
  | cons name rest ih =>
    intro s _ t hs hyields
    exact (ih (index + 1)).after hs (yields_bindParameters_cons hyields) rfl callsIn_introduce

/-- Whatever is generated calls what is provided, with as many arguments as there are parameters. -/
theorem links_expression (hkeyed : env.Keyed) {e : Expr} (h : e.Every Expr.CallsWord) :
    Links env (expression env e) (e.Every (Expr.Fits env.HasArity)) := by
  induction h with
  | number =>
    intro s v t hs hyields
    obtain ⟨-, rfl⟩ := yields_number.1 hyields
    exact ⟨hs.of_calls rfl callsIn_assign, .number trivial⟩
  | var =>
    intro s v t hs hyields
    obtain ⟨slot, -, -, rfl⟩ := yields_var.1 hyields
    exact ⟨hs.of_calls rfl callsIn_assign, .var trivial⟩
  | @unary operator operand _ _ ih =>
    intro s v t hs hyields
    obtain ⟨x, u, hoperand, harity, -, rfl⟩ := yields_unary hyields
    obtain ⟨hu, hfits⟩ := ih s x u hs hoperand
    have hnamed := (Prototype.anonymousName_ne_unaryName operator).symm
    exact ⟨@Linked.call _ _ _ hu hkeyed hnamed [x] harity, .unary harity hfits⟩
  | @binary operator left right _ _ _ ihl ihr =>
    intro s v t hs hyields
    by_cases hop : operator = '='
    · subst hop
      obtain ⟨name, slot, u, rfl, hright, -, rfl⟩ := yields_assignment hyields
      obtain ⟨hu, hfits⟩ := ihr s v u hs hright
      exact ⟨hu.of_calls rfl callsIn_store, .binary (.inl rfl) (.var trivial) hfits⟩
    · obtain ⟨x, a, y, b, hleft, hright, happly⟩ := yields_binary hop hyields
      obtain ⟨ha, hfitsLeft⟩ := ihl s x a hs hleft
      obtain ⟨hb, hfitsRight⟩ := ihr a y b ha hright
      obtain ⟨ht, hfits⟩ := links_applyBinary hkeyed hop x y b v t hb happly
      exact ⟨ht, .binary hfits hfitsLeft hfitsRight⟩
  | @call callee arguments hword _ ih =>
    intro s v t hs hyields
    obtain ⟨values, u, harguments, harity, -, rfl⟩ := yields_application hyields
    obtain ⟨hu, hfits⟩ := links_expressions ih s values u hs harguments
    have hlength := congrArg some harguments.length_expressions
    exact ⟨hu.call hkeyed hword.ne_anonymousName harity, .call (harity.trans hlength) hfits⟩
  | conditional _ _ _ _ ihc iht ihe =>
    intro s v t hs hyields
    obtain ⟨value, tested, x, left, y, right, htest, hleft, hright, -, rfl⟩ :=
      yields_conditional hyields
    obtain ⟨htested, hfitsTest⟩ := ihc s value tested hs htest
    obtain ⟨hleft, hfitsLeft⟩ := iht.after htested hleft rfl fun hcall =>
      callsIn_test (callsIn_addBranches (callsIn_enter hcall))
    obtain ⟨hright, hfitsRight⟩ := ihe.after hleft hright rfl callsIn_enter
    exact ⟨hright.of_calls rfl fun hcall => callsIn_enter (callsIn_assign hcall),
      .conditional trivial hfitsTest hfitsLeft hfitsRight⟩
  | loop _ _ _ _ _ ihs ihf ihstep ihb =>
    intro s v t hs hyields
    obtain ⟨value, started, x, a, y, b, z, c, hstart, hbody, hstep, hfinish, -, rfl⟩ :=
      yields_loop hyields
    obtain ⟨hstarted, hfitsStart⟩ := ihs s value started hs hstart
    obtain ⟨ha, hfitsBody⟩ := ihb.after hstarted hbody rfl fun hcall =>
      callsIn_introduce (callsIn_addLoop (callsIn_enter hcall))
    obtain ⟨hb, hfitsStep⟩ := links_expressionOr ihstep a y b ha hstep
    obtain ⟨hc, hfitsFinish⟩ := ihf.after hb hfinish rfl callsIn_increase
    exact ⟨hc.of_calls rfl fun hcall => callsIn_test (callsIn_enter (callsIn_assign hcall)),
      .loop trivial hfitsStart hfitsFinish hfitsStep hfitsBody⟩
  | locals _ _ _ ihs ihb =>
    intro s v t hs hyields
    obtain ⟨bound, u, hbind, hbody, rfl⟩ := yields_locals hyields
    obtain ⟨hbound, hfitsBindings⟩ := (links_bindLocals ihs).after hs hbind rfl id
    obtain ⟨hu, hfitsBody⟩ := ihb bound v u hbound hbody
    exact ⟨hu.of_calls rfl id, .locals trivial hfitsBindings hfitsBody⟩

/-- A function returns the value of its body. -/
theorem links_function (hkeyed : env.Keyed) {body : Expr} (h : body.Every Expr.CallsWord) :
    Links env (function env body) (body.Every (Expr.Fits env.HasArity)) := by
  intro s _ t hs hyields
  obtain ⟨bound, v, u, hbind, hbody, rfl⟩ := yields_function hyields
  obtain ⟨hbound, -⟩ := (links_bindParameters 0 env.self.parameters).after hs hbind rfl id
  obtain ⟨hu, hfits⟩ := links_expression hkeyed h bound v u hbound hbody
  exact ⟨hu.of_calls rfl callsIn_terminate, hfits⟩

end Lowering

/-- The calls of a generated function fit their callees: each callee has as many parameters as it is
called with, and is the function itself, in the program, or declared. The calls of the tree fit,
too. -/
theorem linked_of_lower_eq_ok {env : Surroundings} {body : Expr} {lowered : Lowered}
    (hkeyed : env.Keyed) (hbody : body.Every Expr.CallsWord) (h : lower env body = .ok lowered) :
    ∃ t, Lowering.Linked env t ∧ lowered.declarations = t.declarations ∧
      (∀ callee n, lowered.function.Calls callee n → Ssa.CallsIn t.builder.blocks callee n) ∧
      body.Every (Expr.Fits env.HasArity) := by
  obtain ⟨t, hyields, rfl⟩ := lower_eq_ok_iff.1 h
  obtain ⟨hlinked, hfits⟩ :=
    Lowering.links_function hkeyed hbody _ () t (Lowering.linked_start env) hyields
  refine ⟨t, hlinked, rfl, fun callee n ⟨found, hmem, hcall⟩ => ?_, hfits⟩
  obtain rfl := Option.mem_some_iff.1 hmem
  exact hcall

end Kaleidoscope
