import Kaleidoscope.Compiler
import Kaleidoscope.Proofs.Ssa.Programs

/-!
# What a definition does to the compiler

A definition has three ends: its operator is rejected, its body is rejected, or the function is
stored. Only the last one changes the program and the operators.
-/

namespace Kaleidoscope.Compiler

open Ssa (Program)

variable {c : Compiler} {d : Definition}

/-- What the body of a definition can refer to. The signature is already known. -/
def surroundings (c : Compiler) (d : Definition) : Surroundings :=
  ⟨d.prototype, c.program, c.prototypes.insert d.prototype.name d.prototype⟩

/-- The three ends of a definition. -/
theorem define_cases (c : Compiler) (d : Definition) :
    (∃ e, installOperator c.operators d.prototype = .error e ∧
      c.define d = (.error (.precedence e), c)) ∨
    (∃ table e, installOperator c.operators d.prototype = .ok table ∧
      lower (c.surroundings d) d.body = .error e ∧
      c.define d = (.error e, ⟨removeOperator c.operators table d.prototype,
        c.prototypes.insert d.prototype.name d.prototype, c.program⟩)) ∨
    (∃ table lowered, installOperator c.operators d.prototype = .ok table ∧
      lower (c.surroundings d) d.body = .ok lowered ∧
      c.define d = (.ok lowered.function, ⟨table,
        c.prototypes.insert d.prototype.name d.prototype,
        (declareAll c.program lowered.declarations).define lowered.function⟩)) := by
  unfold define
  cases hinstall : installOperator c.operators d.prototype with
  | error e => exact .inl ⟨e, rfl, rfl⟩
  | ok table =>
    refine .inr ?_
    cases hlower : lower (c.surroundings d) d.body with
    | error e =>
      refine .inl ⟨table, e, rfl, rfl, ?_⟩
      rw [surroundings] at hlower
      simp only [hlower]
    | ok lowered =>
      refine .inr ⟨table, lowered, rfl, rfl, ?_⟩
      rw [surroundings] at hlower
      simp only [hlower]

/-- Declarations keep names apart. -/
theorem distinct_declareAll {program : Program} (h : program.Distinct) (callees : List Prototype) :
    (declareAll program callees).Distinct := by
  induction callees generalizing program with
  | nil => exact h
  | cons callee rest ih => exact ih (h.declare callee.name callee.parameters)

/-- Declarations change no body. -/
theorem bodyOf?_declareAll (program : Program) (callees : List Prototype) (name : String) :
    Machine.bodyOf? (declareAll program callees) name = Machine.bodyOf? program name := by
  induction callees generalizing program with
  | nil => rfl
  | cons callee rest ih => exact (ih _).trans (Machine.bodyOf?_declare ..)

end Kaleidoscope.Compiler
