import Kaleidoscope.Proofs.Compiler.Definitions
import Kaleidoscope.Proofs.Lowering.Declarations
import Kaleidoscope.Proofs.Lowering.WellFormed

/-!
# How far a definition reaches

A definition that fails leaves the operators and the program alone; only its signature may stay
known. One that succeeds changes the precedence of its own operator and stores its own function.
Besides, it declares the callees that nothing but a signature was known of. This holds of any
signature and any tree, and of any program that has been put in place from outside.
-/

namespace Kaleidoscope

open Ssa (Function Program)

/-- The function that a signature alone gives rise to. -/
def Prototype.declaration (p : Prototype) : Function := ⟨p.name, p.parameters, none⟩

namespace Ssa.Program

variable {f : Function} {added functions before behind : List Function}

/-- `Placed f added functions after`: the functions `after` are `functions`, with `added` behind
them and `f` in the place of the first function of its name, or at the very end. -/
inductive Placed (f : Function) (added : List Function) : List Function → List Function → Prop where
  | inPlace {before : List Function} {old : Function} {behind : List Function} :
      (∀ g ∈ before, g.name ≠ f.name) → old.name = f.name →
      Placed f added (before ++ old :: behind) (before ++ f :: (behind ++ added))
  | atEnd {functions : List Function} : (∀ g ∈ functions, g.name ≠ f.name) →
      Placed f added functions (functions ++ added ++ [f])

/-- A function of a new name comes last. -/
theorem defineIn_of_forall_ne (h : ∀ g ∈ functions, g.name ≠ f.name) :
    defineIn f functions = functions ++ [f] := by
  induction functions with
  | nil => rfl
  | cons first rest ih =>
    obtain ⟨hfirst, hrest⟩ := List.forall_mem_cons.1 h
    rw [defineIn, if_neg hfirst, ih hrest, List.cons_append]

/-- A function takes the place of the one of its name. -/
theorem defineIn_append (h : ∀ g ∈ before, g.name ≠ f.name) {old : Function}
    (hold : old.name = f.name) :
    defineIn f (before ++ old :: behind) = before ++ f :: behind := by
  induction before with
  | nil => exact if_pos hold
  | cons first rest ih =>
    obtain ⟨hfirst, hrest⟩ := List.forall_mem_cons.1 h
    rw [List.cons_append, defineIn, if_neg hfirst, ih hrest, List.cons_append]

/-- Functions are searched up to the first one of a name. -/
theorem exists_split_or_forall_ne (name : String) (functions : List Function) :
    (∃ before old behind, functions = before ++ old :: behind ∧ old.name = name ∧
      ∀ g ∈ before, g.name ≠ name) ∨ ∀ g ∈ functions, g.name ≠ name := by
  induction functions with
  | nil => exact .inr nofun
  | cons first rest ih =>
    by_cases hfirst : first.name = name
    · exact .inl ⟨[], first, rest, rfl, hfirst, nofun⟩
    · rcases ih with ⟨before, old, behind, rfl, hold, hbefore⟩ | hrest
      · exact .inl ⟨first :: before, old, behind, rfl, hold,
          List.forall_mem_cons.2 ⟨hfirst, hbefore⟩⟩
      · exact .inr (List.forall_mem_cons.2 ⟨hfirst, hrest⟩)

/-- A function that is stored after others of other names have been added. -/
theorem placed_defineIn (hadded : ∀ g ∈ added, g.name ≠ f.name) (functions : List Function) :
    Placed f added functions (defineIn f (functions ++ added)) := by
  obtain ⟨before, old, behind, rfl, hold, hbefore⟩ | hnone :=
    exists_split_or_forall_ne f.name functions
  · rw [List.append_assoc, List.cons_append, defineIn_append hbefore hold]
    exact .inPlace hbefore hold
  · rw [defineIn_of_forall_ne fun g hg => (List.mem_append.1 hg).elim (hnone g) (hadded g)]
    exact .atEnd hnone

end Ssa.Program

namespace Compiler

variable {c : Compiler} {d : Definition} {program : Program} {callees : List Prototype}

/-- Declarations of new names are added at the end, in order. -/
theorem functions_declareAll (hnew : ∀ p ∈ callees, program.find? p.name = none)
    (hnodup : (callees.map Prototype.name).Nodup) :
    (declareAll program callees).functions =
      program.functions ++ callees.map Prototype.declaration := by
  induction callees generalizing program with
  | nil => exact (List.append_nil _).symm
  | cons first rest ih =>
    obtain ⟨hfirst, hrest⟩ := List.forall_mem_cons.1 hnew
    rw [List.map_cons, List.nodup_cons] at hnodup
    have hdeclare : (program.declare first.name first.parameters).functions =
        program.functions ++ [first.declaration] := by
      rw [Program.declare, hfirst]
      rfl
    have hstill : ∀ p ∈ rest, (program.declare first.name first.parameters).find? p.name = none := by
      intro p hp
      have hne : first.name ≠ p.name := fun hname => hnodup.1 (hname ▸ List.mem_map_of_mem hp)
      rw [Program.find?_declare, if_neg hne]
      exact hrest p hp
    change (declareAll (program.declare first.name first.parameters) rest).functions = _
    rw [ih hstill hnodup.2, hdeclare, List.append_assoc, List.singleton_append, List.map_cons]

/-- An operator that has been installed can be taken back, and no other one has changed. -/
theorem of_installOperator_eq_ok {before table : OperatorTable} {p : Prototype}
    (h : installOperator before p = .ok table) : removeOperator before table p = before ∧
      ∀ symbol, p.operator? ≠ some symbol → table.lookup symbol = before.lookup symbol := by
  unfold installOperator at h
  split at h
  · rename_i n operator hrole hoperator
    rw [OperatorTable.define] at h
    split at h
    · obtain rfl := Except.ok.inj h
      refine ⟨?_, fun symbol hne => ?_⟩
      · simp only [removeOperator, hrole, hoperator]
        exact congrArg OperatorTable.mk (Dictionary.restore_insert ..)
      · rw [OperatorTable.lookup, Dictionary.lookup_insert,
          if_neg fun hsymbol => hne (hoperator.trans (congrArg some hsymbol))]
        rfl
    · cases h
  · rename_i hnone
    obtain rfl := Except.ok.inj h
    refine ⟨?_, fun _ _ => rfl⟩
    unfold removeOperator
    split
    · rename_i n operator hrole hoperator
      exact (hnone n operator hrole hoperator).elim
    · rfl

/-- The states that the compiler can be in: statements have been compiled, and the program has been
exchanged at will. -/
inductive Reached : Compiler → Prop where
  | start : Reached .start
  | define {c : Compiler} (d : Definition) : Reached c → Reached (c.define d).2
  | declare {c : Compiler} (p : Prototype) : Reached c → Reached (c.declare p)
  | exchange {c : Compiler} (program : Program) : Reached c → Reached { c with program := program }

/-- A signature that becomes known by its own name keeps this true of all of them. -/
theorem name_of_lookup_insert {prototypes : Dictionary String Prototype}
    (h : ∀ {name p}, prototypes.lookup name = some p → p.name = name) (q : Prototype) {name : String}
    {p : Prototype} (hp : (prototypes.insert q.name q).lookup name = some p) : p.name = name := by
  rw [Dictionary.lookup_insert] at hp
  split at hp
  · cases hp
    assumption
  · exact h hp

/-- Every signature is known by its own name. -/
theorem Reached.name_of_lookup (h : Reached c) {name : String} {p : Prototype}
    (hp : c.prototypes.lookup name = some p) : p.name = name := by
  induction h generalizing name p with
  | start => cases hp
  | @define c d _ ih =>
    obtain ⟨e, -, heq⟩ | ⟨table, e, -, -, heq⟩ | ⟨table, lowered, -, -, heq⟩ := c.define_cases d
    · rw [heq] at hp
      exact ih hp
    · rw [heq] at hp
      exact name_of_lookup_insert ih d.prototype hp
    · rw [heq] at hp
      exact name_of_lookup_insert ih d.prototype hp
  | declare q _ ih => exact name_of_lookup_insert ih q hp
  | exchange _ _ ih => exact ih hp

/-- The callees of a definition that nothing but a signature is known of, in the order of first
use. -/
def missing (c : Compiler) (d : Definition) : List Prototype :=
  d.body.callees.eraseDups.filterMap (c.surroundings d).onlySigned?

/-- What a definition that is rejected does: at most, its signature becomes known. -/
structure Undone (c : Compiler) (d : Definition) (e : CompileError) (after : Compiler) : Prop where
  operators : ∀ symbol, after.operators.lookup symbol = c.operators.lookup symbol
  program : after.program = c.program
  prototypes : ∀ name, name ≠ d.prototype.name →
    after.prototypes.lookup name = c.prototypes.lookup name
  /-- If it is the operator that is rejected, not even that. -/
  unknown : ∀ cause, e = .precedence cause → after.prototypes = c.prototypes

/-- What a definition that is accepted does. -/
structure Done (c : Compiler) (d : Definition) (f : Function) (after : Compiler) : Prop where
  operators : ∀ symbol, d.prototype.operator? ≠ some symbol →
    after.operators.lookup symbol = c.operators.lookup symbol
  prototypes : ∀ name, name ≠ d.prototype.name →
    after.prototypes.lookup name = c.prototypes.lookup name
  name : f.name = d.prototype.name
  parameters : f.parameters = d.prototype.parameters
  body : f.body.isSome
  program : Program.Placed f ((c.missing d).map Prototype.declaration) c.program.functions
    after.program.functions

/-- The signature of a definition replaces no other one. -/
theorem lookup_insert_of_ne {p : Prototype} {name : String} (h : name ≠ p.name) :
    (c.prototypes.insert p.name p).lookup name = c.prototypes.lookup name := by
  rw [Dictionary.lookup_insert, if_neg h.symm]

/-- What surrounds a definition knows every signature by its own name. -/
theorem Reached.keyed_surroundings (h : Reached c) (d : Definition) : (c.surroundings d).Keyed :=
  fun _ _ => name_of_lookup_insert h.name_of_lookup d.prototype

/-- The program gets the callees that are missing, and the function in its place. -/
theorem Reached.placed_define (h : Reached c) {lowered : Lowered}
    (hlower : lower (c.surroundings d) d.body = .ok lowered) :
    Program.Placed lowered.function ((c.missing d).map Prototype.declaration) c.program.functions
      ((declareAll c.program lowered.declarations).define lowered.function).functions := by
  have hkeyed := h.keyed_surroundings d
  have hdeclarations : lowered.declarations = c.missing d := declarations_of_lower_eq_ok hkeyed hlower
  have hnodup := nodup_declarations_of_lower_eq_ok hlower
  rw [hdeclarations] at hnodup ⊢
  have hsigned {p : Prototype} (hp : p ∈ c.missing d) :
      (c.surroundings d).onlySigned? p.name = some p := by
    obtain ⟨callee, -, hcallee⟩ := List.mem_filterMap.1 hp
    rwa [hkeyed.name_of_onlySigned? hcallee]
  have hnew : ∀ p ∈ c.missing d, c.program.find? p.name = none :=
    fun p hp => Surroundings.find?_of_onlySigned? (hsigned hp)
  rw [Program.define, functions_declareAll hnew hnodup]
  refine Program.placed_defineIn (fun g hg => ?_) c.program.functions
  obtain ⟨p, hp, rfl⟩ := List.mem_map.1 hg
  rw [(signature_of_lower_eq_ok hlower).1]
  exact Surroundings.ne_self_of_onlySigned? (hsigned hp)

/-- A definition that fails undoes what it has changed, all but its signature. One that succeeds
changes only what it defines, and adds the declarations that were missing. -/
theorem Reached.define_undone_or_done (h : Reached c) (d : Definition) :
    (∀ e, (c.define d).1 = .error e → Undone c d e (c.define d).2) ∧
    ∀ f, (c.define d).1 = .ok f → Done c d f (c.define d).2 := by
  obtain ⟨e, -, heq⟩ | ⟨table, e, hinstall, hlower, heq⟩ | ⟨table, lowered, hinstall, hlower, heq⟩ :=
    c.define_cases d
  · rw [heq]
    exact ⟨fun _ _ => ⟨fun _ => rfl, rfl, fun _ _ => rfl, fun _ _ => rfl⟩, nofun⟩
  · rw [heq, (of_installOperator_eq_ok hinstall).1]
    refine ⟨fun e' he => ?_, nofun⟩
    obtain rfl := Except.error.inj he
    exact ⟨fun _ => rfl, rfl, fun _ => lookup_insert_of_ne,
      fun cause hcause => (ne_precedence_of_lower_eq_error hlower cause hcause).elim⟩
  · rw [heq]
    refine ⟨nofun, fun f hf => ?_⟩
    obtain rfl := Except.ok.inj hf
    have hplaced := h.placed_define hlower
    obtain ⟨t, -, rfl⟩ := lower_eq_ok_iff.1 hlower
    exact ⟨(of_installOperator_eq_ok hinstall).2, fun _ => lookup_insert_of_ne, rfl, rfl, rfl, hplaced⟩

/-- An operator whose function calls another one, of which only the signature has been left, is
defined. If it uses an unknown variable, it is not. -/
theorem operator_undone_or_done :
    let sine : Prototype := ⟨"sin", ["x"], .plain⟩
    let operator : Prototype := ⟨"binary|", ["a", "b"], .binary 5⟩
    let known : Compiler := { Compiler.start.declare sine with program := .empty }
    let right : Definition := ⟨operator, .binary '+' (.call "sin" [.var "a"]) (.call "sin" [.var "b"])⟩
    let wrong : Definition := ⟨operator, .binary '+' (.call "sin" [.var "a"]) (.var "c")⟩
    (∃ f, (known.define right).1 = .ok f ∧ Done known right f (known.define right).2) ∧
      known.missing right = [sine] ∧
      ∃ e, (known.define wrong).1 = .error e ∧ Undone known wrong e (known.define wrong).2 := by
  intro sine operator known right wrong
  have hknown : Reached known := (Reached.start.declare sine).exchange .empty
  obtain ⟨f, hf⟩ : ∃ f, (known.define right).1 = .ok f := exists_eq_ok_of_isOk (by decide +kernel)
  obtain ⟨e, he⟩ : ∃ e, (known.define wrong).1 = .error e :=
    exists_eq_error_of_not_isOk (by decide +kernel)
  exact ⟨⟨f, hf, (hknown.define_undone_or_done right).2 f hf⟩, by decide +kernel, e, he,
    (hknown.define_undone_or_done wrong).1 e he⟩

end Compiler

end Kaleidoscope
