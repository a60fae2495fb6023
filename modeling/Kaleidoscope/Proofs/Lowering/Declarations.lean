import Kaleidoscope.Proofs.Lowering.Growth
import Kaleidoscope.Proofs.Ssa.Programs
import Mathlib.Data.List.Induction

/-!
# The declarations that a function brings along

A callee is looked up each time that a call of it is generated, and the first look-up may add a
declaration. So the declarations of a function can be read off its tree: they are the callees in the
order of their first use, less those that are known from elsewhere.
-/

namespace Kaleidoscope

open Ssa (Builder SlotId ValueId)

namespace Expr

mutual

/-- The functions that the code of an expression calls, in the order in which the calls are
generated. A loop has its test behind its body and its step. -/
def callees : Expr → List String
  | number _ => []
  | var _ => []
  | unary operator operand => operand.callees ++ [Prototype.unaryName operator]
  | binary operator left right =>
    left.callees ++ (right.callees ++
      if OperatorTable.isBuiltin operator then [] else [Prototype.binaryName operator])
  | call callee arguments => argumentCallees arguments ++ [callee]
  | conditional condition consequent alternative =>
    condition.callees ++ (consequent.callees ++ alternative.callees)
  | loop _ start finish step body =>
    start.callees ++ (body.callees ++ (partCallees step ++ finish.callees))
  | locals bindings body => bindingCallees bindings ++ body.callees

/-- The functions that arguments call. -/
def argumentCallees : List Expr → List String
  | [] => []
  | first :: rest => first.callees ++ argumentCallees rest

/-- The functions that an optional part calls. -/
def partCallees : Option Expr → List String
  | none => []
  | some e => e.callees

/-- The functions that the initial values of local variables call. -/
def bindingCallees : List (String × Option Expr) → List String
  | [] => []
  | (_, initial) :: rest => partCallees initial ++ bindingCallees rest

end

end Expr

namespace Surroundings

variable {env : Surroundings} {callee : String} {p : Prototype}

/-- Every signature is known by its own name. -/
def Keyed (env : Surroundings) : Prop :=
  ∀ name p, env.prototypes.lookup name = some p → p.name = name

/-- A callee that only a signature is known of is not the function itself. -/
theorem ne_self_of_onlySigned? (h : env.onlySigned? callee = some p) : callee ≠ env.self.name := by
  rintro rfl
  rw [onlySigned?, if_pos rfl] at h
  cases h

/-- The program does not have it. -/
theorem find?_of_onlySigned? (h : env.onlySigned? callee = some p) :
    env.program.find? callee = none := by
  rw [onlySigned?, if_neg (ne_self_of_onlySigned? h)] at h
  split at h
  · cases h
  · assumption

/-- Its signature is the known one. -/
theorem lookup_of_onlySigned? (h : env.onlySigned? callee = some p) :
    env.prototypes.lookup callee = some p := by
  have hfind := find?_of_onlySigned? h
  rw [onlySigned?, if_neg (ne_self_of_onlySigned? h), hfind] at h
  exact h

/-- The signature bears its name. -/
theorem Keyed.name_of_onlySigned? (hkeyed : env.Keyed) (h : env.onlySigned? callee = some p) :
    p.name = callee :=
  hkeyed callee p (lookup_of_onlySigned? h)

/-- A callee of known arity that is not only signed is the function itself or in the program. -/
theorem known_of_onlySigned?_eq_none {n : Nat} (h : env.onlySigned? callee = none)
    (harity : env.arity? callee = some n) :
    callee = env.self.name ∨ (env.program.find? callee).isSome := by
  by_cases hself : callee = env.self.name
  · exact .inl hself
  rw [onlySigned?, if_neg hself] at h
  rw [arity?, if_neg hself] at harity
  cases hfind : env.program.find? callee with
  | some f => exact .inr rfl
  | none =>
    simp only [hfind] at h harity
    rw [h] at harity
    cases harity

/-- What is declared stays declared. -/
theorem subset_require (env : Surroundings) (declarations : List Prototype) (callee : String) :
    declarations ⊆ env.require declarations callee := by
  intro q hmem
  rw [require]
  split
  · exact hmem
  · split
    · exact hmem
    · exact List.mem_append_left _ hmem

/-- A look-up declares the callee at most. -/
theorem mem_require {declarations : List Prototype} {q : Prototype}
    (h : q ∈ env.require declarations callee) :
    q ∈ declarations ∨ env.onlySigned? callee = some q := by
  rw [require] at h
  split at h
  · exact .inl h
  · rename_i p hp
    split at h
    · exact .inl h
    · rcases List.mem_append.1 h with hmem | hmem
      · exact .inl hmem
      · obtain rfl := List.mem_singleton.1 hmem
        exact .inr hp

/-- A callee that only a signature is known of is declared once it has been looked up. -/
theorem exists_mem_require (h : env.onlySigned? callee = some p) (declarations : List Prototype) :
    ∃ q ∈ env.require declarations callee, q.name = p.name := by
  rw [require, h]
  dsimp only
  split
  · rename_i hany
    obtain ⟨q, hmem, hname⟩ := List.any_eq_true.1 hany
    exact ⟨q, hmem, of_decide_eq_true hname⟩
  · exact ⟨p, List.mem_append_right _ (List.mem_singleton_self p), rfl⟩

/-- Among the signatures of some callees there is one of another callee's name only if it is one of
them. -/
theorem Keyed.any_name_iff (hkeyed : env.Keyed) (h : env.onlySigned? callee = some p)
    (callees : List String) :
    (callees.filterMap env.onlySigned?).any (·.name = p.name) = true ↔ callee ∈ callees := by
  rw [List.any_eq_true]
  constructor
  · rintro ⟨q, hmem, hname⟩
    obtain ⟨other, hother, hq⟩ := List.mem_filterMap.1 hmem
    have hsame : q.name = p.name := of_decide_eq_true hname
    rw [hkeyed.name_of_onlySigned? hq, hkeyed.name_of_onlySigned? h] at hsame
    exact hsame ▸ hother
  · exact fun hmem => ⟨p, List.mem_filterMap.2 ⟨callee, hmem, h⟩, decide_eq_true rfl⟩

/-- No name is declared twice. -/
theorem nodup_foldl_require (env : Surroundings) (callees : List String) :
    ((callees.foldl env.require []).map Prototype.name).Nodup := by
  induction callees using List.reverseRecOn with
  | nil => exact List.nodup_nil
  | append_singleton callees callee ih =>
    rw [List.foldl_append, List.foldl_cons, List.foldl_nil, require]
    split
    · exact ih
    · rename_i p hp
      split
      · exact ih
      · rename_i hany
        rw [List.map_append, List.map_cons, List.map_nil]
        refine Ssa.Program.nodup_concat ih fun hmem => hany (List.any_eq_true.2 ?_)
        obtain ⟨q, hq, hname⟩ := List.mem_map.1 hmem
        exact ⟨q, hq, decide_eq_true hname⟩

/-- Callees that are looked up one after the other are declared at their first use. -/
theorem Keyed.foldl_require (hkeyed : env.Keyed) (callees : List String) :
    callees.foldl env.require [] = callees.eraseDups.filterMap env.onlySigned? := by
  induction callees using List.reverseRecOn with
  | nil => rfl
  | append_singleton callees callee ih =>
    rw [List.foldl_append, List.foldl_cons, List.foldl_nil, ih, List.eraseDups_append, require]
    by_cases hmem : callee ∈ callees
    · have hnone : [callee].removeAll callees = [] := by simp [List.removeAll, hmem]
      rw [hnone, List.eraseDups_nil, List.append_nil]
      split
      · rfl
      · rename_i p hp
        rw [if_pos ((hkeyed.any_name_iff hp _).2 (List.mem_eraseDups.2 hmem))]
    · have hone : [callee].removeAll callees = [callee] := by simp [List.removeAll, hmem]
      rw [hone, List.eraseDups_cons, List.filter_nil, List.eraseDups_nil, List.filterMap_append]
      split
      · rename_i hp
        rw [List.filterMap_cons_none hp, List.filterMap_nil, List.append_nil]
      · rename_i p hp
        rw [if_neg fun h => hmem (List.mem_eraseDups.1 ((hkeyed.any_name_iff hp _).1 h)),
          List.filterMap_cons_some hp, List.filterMap_nil]

end Surroundings

namespace Lowering

variable {α : Type} {env : Surroundings}

/-- If the action succeeds, it has looked up these callees, one after the other. -/
def Requires (env : Surroundings) (action : Lowering α) (callees : List String) : Prop :=
  ∀ s a t, Yields action s a t → t.declarations = callees.foldl env.require s.declarations

/-- It is the declarations in the beginning that count, not the rest of the state. -/
theorem Requires.after {action : Lowering α} {callees : List String} {s t : State} {a : α}
    {declarations : List Prototype} (h : Requires env action callees) (hyields : Yields action s a t)
    (hs : s.declarations = declarations) :
    t.declarations = callees.foldl env.require declarations :=
  hs ▸ h s a t hyields

/-- An operator that is not built in is looked up. -/
theorem requires_applyBinary {operator : Char} (hassign : operator ≠ '=') (left right : ValueId) :
    Requires env (applyBinary env operator left right)
      (if OperatorTable.isBuiltin operator then [] else [Prototype.binaryName operator]) := by
  intro s v t h
  rcases yields_applyBinary hassign h with ⟨hbuiltin, operations, rfl⟩ | ⟨hbuiltin, h⟩
  · rw [if_pos hbuiltin]
    rfl
  · obtain ⟨-, -, rfl⟩ := yields_callBinary h
    rw [if_neg hbuiltin]
    rfl

/-- Expressions in a row look up their callees in a row. -/
theorem requires_expressions {arguments : List Expr}
    (h : ∀ e ∈ arguments, Requires env (expression env e) e.callees) :
    Requires env (expressions env arguments) (Expr.argumentCallees arguments) := by
  induction arguments with
  | nil =>
    intro s values t hyields
    obtain ⟨-, rfl⟩ := yields_pure.1 hyields
    rfl
  | cons first rest ih =>
    intro s values t hyields
    obtain ⟨hfirst, hrest⟩ := List.forall_mem_cons.1 h
    obtain ⟨x, u, xs, -, hx, hxs⟩ := yields_expressions_cons hyields
    rw [Expr.argumentCallees, List.foldl_append, ← hfirst s x u hx]
    exact ih hrest u xs t hxs

/-- A constant looks up nothing. -/
theorem requires_expressionOr {constant : Float} {e : Option Expr}
    (h : ∀ e' ∈ e, Requires env (expression env e') e'.callees) :
    Requires env (expressionOr env constant e) (Expr.partCallees e) := by
  cases e with
  | none =>
    intro s v t hyields
    rw [expressionOr] at hyields
    obtain ⟨-, rfl⟩ := yields_build.1 hyields
    rfl
  | some e => exact h e rfl

/-- Local variables look up the callees of their initial values. -/
theorem requires_bindLocals {bindings : List (String × Option Expr)}
    (h : ∀ binding ∈ bindings, ∀ e ∈ binding.2, Requires env (expression env e) e.callees) :
    Requires env (bindLocals env bindings) (Expr.bindingCallees bindings) := by
  induction bindings with
  | nil =>
    intro s _ t hyields
    obtain ⟨-, rfl⟩ := yields_pure.1 hyields
    rfl
  | cons binding rest ih =>
    intro s _ t hyields
    obtain ⟨name, initial⟩ := binding
    obtain ⟨hfirst, hrest⟩ := List.forall_mem_cons.1 h
    obtain ⟨value, u, hvalue, hrun⟩ := yields_bindLocals_cons hyields
    rw [Expr.bindingCallees, List.foldl_append, ← requires_expressionOr hfirst s value u hvalue]
    exact (ih hrest).after hrun rfl

/-- Parameters look up nothing. -/
theorem Yields.declarations_bindParameters {index : Nat} {names : List String} {s t : State}
    (h : Yields (bindParameters index names) s () t) : t.declarations = s.declarations := by
  induction names generalizing index s with
  | nil =>
    obtain ⟨-, rfl⟩ := yields_pure.1 h
    rfl
  | cons name rest ih =>
    have hlater := ih (yields_bindParameters_cons h)
    exact hlater

/-- An expression looks up its callees in order. -/
theorem requires_expression (e : Expr) : Requires env (expression env e) e.callees := by
  induction e with
  | number =>
    intro s v t h
    obtain ⟨-, rfl⟩ := yields_number.1 h
    rfl
  | var =>
    intro s v t h
    obtain ⟨_, -, -, rfl⟩ := yields_var.1 h
    rfl
  | unary operator operand ih =>
    intro s v t h
    obtain ⟨x, u, hoperand, -, -, rfl⟩ := yields_unary h
    rw [Expr.callees, List.foldl_append, ← ih s x u hoperand]
    rfl
  | binary operator left right ihl ihr =>
    intro s v t h
    by_cases hop : operator = '='
    · subst hop
      obtain ⟨name, slot, u, rfl, hright, -, rfl⟩ := yields_assignment h
      have hbuiltin : OperatorTable.isBuiltin '=' = true := rfl
      rw [Expr.callees, Expr.callees, if_pos hbuiltin, List.append_nil, List.nil_append]
      exact ihr s v u hright
    · obtain ⟨x, a, y, b, hleft, hright, happly⟩ := yields_binary hop h
      rw [Expr.callees, List.foldl_append, List.foldl_append, ← ihl s x a hleft,
        ← ihr a y b hright]
      exact requires_applyBinary hop x y b v t happly
  | call callee arguments ih =>
    intro s v t h
    obtain ⟨values, u, harguments, -, -, rfl⟩ := yields_application h
    rw [Expr.callees, List.foldl_append, ← requires_expressions ih s values u harguments]
    rfl
  | conditional test consequent alternative ihc iht ihe =>
    intro s v t h
    obtain ⟨value, tested, x, left, y, right, htest, hleft, hright, -, rfl⟩ := yields_conditional h
    rw [Expr.callees, List.foldl_append, List.foldl_append, ← ihc s value tested htest,
      ← iht.after hleft rfl, ← ihe.after hright rfl]
  | loop name start finish step body ihs ihf ihstep ihb =>
    intro s v t h
    obtain ⟨value, started, x, a, y, b, z, c, hstart, hbody, hstep, hfinish, -, rfl⟩ := yields_loop h
    rw [Expr.callees, List.foldl_append, List.foldl_append, List.foldl_append,
      ← ihs s value started hstart, ← ihb.after hbody rfl,
      ← requires_expressionOr ihstep a y b hstep, ← ihf.after hfinish rfl]
  | locals bindings body ihs ihb =>
    intro s v t h
    obtain ⟨bound, u, hbind, hbody, rfl⟩ := yields_locals h
    rw [Expr.callees, List.foldl_append, ← (requires_bindLocals ihs).after hbind rfl]
    exact ihb bound v u hbody

/-- A function looks up the callees of its body. -/
theorem requires_function (body : Expr) : Requires env (function env body) body.callees := by
  intro s _ t h
  obtain ⟨bound, v, u, hbind, hbody, rfl⟩ := yields_function h
  have hbound : bound.declarations = s.declarations := hbind.declarations_bindParameters
  rw [← (requires_expression body).after hbody hbound]

end Lowering

/-- A generated function brings along no two signatures of one name. -/
theorem nodup_declarations_of_lower_eq_ok {env : Surroundings} {body : Expr} {lowered : Lowered}
    (h : lower env body = .ok lowered) : (lowered.declarations.map Prototype.name).Nodup := by
  obtain ⟨t, hyields, rfl⟩ := lower_eq_ok_iff.1 h
  change (t.declarations.map Prototype.name).Nodup
  rw [Lowering.requires_function body _ _ t hyields]
  exact env.nodup_foldl_require body.callees

/-- A generated function brings along the signatures of those callees that nothing else is known of,
in the order of their first use. -/
theorem declarations_of_lower_eq_ok {env : Surroundings} {body : Expr} {lowered : Lowered}
    (hkeyed : env.Keyed) (h : lower env body = .ok lowered) :
    lowered.declarations = body.callees.eraseDups.filterMap env.onlySigned? := by
  obtain ⟨t, hyields, rfl⟩ := lower_eq_ok_iff.1 h
  exact (Lowering.requires_function body _ _ t hyields).trans (hkeyed.foldl_require _)

end Kaleidoscope
