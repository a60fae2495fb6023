import Kaleidoscope.Proofs.Compiler.Effects

/-!
# What is found by name after a definition

A body looks names up and nothing else. So what a definition does to those that follow is what it
does to look-ups: its own function is found under its name, and a callee that only a signature was
known of is found as a declaration.
-/

namespace Kaleidoscope.Compiler

open Ssa (Function Program)

variable {c : Compiler} {d : Definition} {name : String}

/-- The number of parameters that a function is called with in the bodies of others. -/
def arity? (c : Compiler) (name : String) : Option Nat :=
  ((c.program.find? name).map Function.arity).or ((c.prototypes.lookup name).map Prototype.arity)

/-- In its own body a function is called as its signature says. -/
theorem arity?_surroundings (c : Compiler) (d : Definition) (name : String) :
    (c.surroundings d).arity? name =
      if name = d.prototype.name then some d.prototype.arity else c.arity? name := by
  unfold Surroundings.arity?
  by_cases hself : name = d.prototype.name
  · rw [if_pos hself, surroundings, if_pos hself]
  · rw [if_neg hself, surroundings, if_neg hself]
    dsimp only
    rw [lookup_insert_of_ne hself, arity?]
    cases c.program.find? name with
    | none => rfl
    | some f => rfl

/-- A declaration of a function is found unless there is a function already. -/
theorem find?_declareAll (program : Program) (callees : List Prototype) (name : String) :
    (declareAll program callees).find? name =
      (program.find? name).or ((callees.find? (·.name = name)).map Prototype.declaration) := by
  induction callees generalizing program with
  | nil => exact (Option.or_none).symm
  | cons first rest ih =>
    change (declareAll (program.declare first.name first.parameters) rest).find? name = _
    rw [ih, Program.find?_declare]
    by_cases hname : first.name = name
    · subst hname
      rw [if_pos rfl, Option.some_or, List.find?_cons, decide_eq_true rfl]
      cases program.find? first.name with
      | none => rfl
      | some f => rfl
    · rw [if_neg hname, List.find?_cons, decide_eq_false hname]

/-- The callees of a definition that are missing are found by their names. -/
theorem Reached.find?_missing (h : Reached c) (d : Definition) (name : String) :
    (c.missing d).find? (·.name = name) =
      if name ∈ d.body.callees then (c.surroundings d).onlySigned? name else none := by
  have hkeyed := h.keyed_surroundings d
  have hnamed {p : Prototype} (hp : p ∈ c.missing d) :
      p.name ∈ d.body.callees ∧ (c.surroundings d).onlySigned? p.name = some p := by
    obtain ⟨callee, hcallee, hsigned⟩ := List.mem_filterMap.1 hp
    obtain rfl := hkeyed.name_of_onlySigned? hsigned
    exact ⟨List.mem_eraseDups.1 hcallee, hsigned⟩
  cases hfind : (c.missing d).find? (·.name = name) with
  | some p =>
    have hname := List.find?_some hfind
    obtain rfl : p.name = name := of_decide_eq_true hname
    obtain ⟨hcallee, hsigned⟩ := hnamed (List.mem_of_find?_eq_some hfind)
    rw [if_pos hcallee, hsigned]
  | none =>
    split
    · rename_i hcallee
      cases hsigned : (c.surroundings d).onlySigned? name with
      | none => rfl
      | some p =>
        have hmem : p ∈ c.missing d :=
          List.mem_filterMap.2 ⟨name, List.mem_eraseDups.2 hcallee, hsigned⟩
        have hne := List.find?_eq_none.1 hfind p hmem
        exact (hne (decide_eq_true (hkeyed.name_of_onlySigned? hsigned))).elim
    · rfl

/-- `Attempt c d result after`: how a definition ends, as far as look-ups tell. -/
inductive Attempt (c : Compiler) (d : Definition) : Except CompileError Function → Compiler → Prop where
  /-- Its operator is rejected, and nothing becomes known. -/
  | refused (cause : PrecedenceError) : Attempt c d (.error (.precedence cause)) c
  /-- Its body is rejected, and its signature stays known. -/
  | rejected {e : CompileError} {after : Compiler} : (∀ cause, e ≠ .precedence cause) →
      after.program = c.program →
      after.prototypes = c.prototypes.insert d.prototype.name d.prototype →
      Attempt c d (.error e) after
  /-- Its function is stored, and callees of which only a signature was known have been declared. -/
  | stored {f : Function} {after : Compiler} : f.arity = d.prototype.arity →
      after.prototypes = c.prototypes.insert d.prototype.name d.prototype →
      (∀ name, after.program.find? name =
        if name = d.prototype.name then some f
        else (c.program.find? name).or
          (if name ∈ d.body.callees then (c.prototypes.lookup name).map Prototype.declaration
            else none)) →
      Attempt c d (.ok f) after

/-- Every definition ends in one of these ways. -/
theorem Reached.attempt (h : Reached c) (d : Definition) : Attempt c d (c.define d).1 (c.define d).2 := by
  obtain ⟨e, -, heq⟩ | ⟨table, e, -, hlower, heq⟩ | ⟨table, lowered, -, hlower, heq⟩ := c.define_cases d
  · rw [heq]
    exact .refused e
  · rw [heq]
    exact .rejected (ne_precedence_of_lower_eq_error hlower) rfl rfl
  · rw [heq]
    obtain ⟨hname, harity⟩ := signature_of_lower_eq_ok hlower
    refine .stored harity rfl fun name => ?_
    replace hname : lowered.function.name = d.prototype.name := hname
    change ((declareAll c.program lowered.declarations).define lowered.function).find? name = _
    rw [Program.find?_define, hname, declarations_of_lower_eq_ok (h.keyed_surroundings d) hlower]
    by_cases hself : name = d.prototype.name
    · rw [if_pos hself, if_pos hself.symm]
    · rw [if_neg hself, if_neg (Ne.symm hself), find?_declareAll]
      change (c.program.find? name).or
        (((c.missing d).find? (·.name = name)).map Prototype.declaration) = _
      rw [h.find?_missing d name]
      cases hfind : c.program.find? name with
      | some f => rfl
      | none =>
        have hsigned : (c.surroundings d).onlySigned? name = c.prototypes.lookup name := by
          rw [Surroundings.onlySigned?, surroundings, if_neg hself, hfind]
          exact lookup_insert_of_ne hself
        rw [hsigned]
        split
        · rfl
        · rfl

end Kaleidoscope.Compiler
