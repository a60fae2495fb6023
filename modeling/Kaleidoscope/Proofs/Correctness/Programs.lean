import Kaleidoscope.Proofs.Compiler.Definitions
import Kaleidoscope.Proofs.Correctness.Functions
import Mathlib.Data.List.Induction
import Mathlib.Logic.Function.Basic

/-!
# Compiled programs do what their definitions mean

Whatever is defined, declared and removed one after the other, the program has for each function the
code of its latest definition that succeeded and has not been removed since. Calling a function in
such a program comes to the same end as evaluating the call: the same value or the same failure,
after the same calls of native functions, or no end on either side.
-/

namespace Kaleidoscope

open Ssa (Program)

namespace Represents

variable {p : Program} {definitions : Definitions}

/-- How evaluating a call ends decides how the machine ends. -/
theorem call_cases (h : Represents p definitions) (m : Machine) (rounds : Nat) (name : String)
    (arguments : List Float) :
    match definitions.call m rounds name arguments with
    | none => m.call p rounds name arguments = none
    | some (.error .meaningless, _) => False
    | some (.error (.failed e), natives) =>
      ∃ steps, m.call p steps name arguments = some ⟨.error e, natives⟩
    | some (.ok x, natives) => ∃ steps, m.call p steps name arguments = some ⟨.ok x, natives⟩ := by
  have hentry := h.entersAs m rounds (Nat.sub_zero m.limit)
    (fun fewer hfewer => h.realizesCalls (by omega)) name arguments
  unfold Definitions.call Machine.call
  cases henter : m.enter p 0 name arguments with
  | error e =>
    rw [henter] at hentry
    rw [show definitions.invoke m rounds m.limit name arguments = throw (.failed e) from hentry]
    exact ⟨0, rfl⟩
  | ok entry =>
    rw [henter] at hentry
    cases entry with
    | returned x call =>
      rw [show definitions.invoke m rounds m.limit name arguments = do Evaluation.record call; return x
        from hentry]
      exact ⟨0, rfl⟩
    | invoked frame =>
      have hrealizes := hentry [] ⟨[], []⟩ rfl
      unfold Realizes at hrealizes
      cases hrun : (definitions.invoke m rounds m.limit name arguments).run.run ⟨[], []⟩ with
      | none =>
        rw [hrun] at hrealizes
        exact hrealizes
      | some outcome =>
        obtain ⟨result, after⟩ := outcome
        rw [hrun] at hrealizes
        cases result with
        | error stop =>
          cases stop with
          | failed e => exact hrealizes
          | meaningless => exact hrealizes
        | ok x =>
          obtain ⟨steps, last, hsteps, -, hlast⟩ := hrealizes
          refine ⟨1 + steps, (hsteps 1).trans ?_⟩
          exact Machine.runFrom_succ_of_finished hlast 0 after.natives

/-- No evaluation of a call is meaningless. -/
theorem call_ne_meaningless (h : Represents p definitions) (m : Machine) (rounds : Nat)
    (name : String) (arguments : List Float) (natives : List Machine.NativeCall) :
    definitions.call m rounds name arguments ≠ some (.error .meaningless, natives) := by
  intro hcall
  have hcases := h.call_cases m rounds name arguments
  rw [hcall] at hcases
  exact hcases

/-- The machine comes to an end exactly if the evaluation does, and to the same one. -/
theorem call_iff (h : Represents p definitions) (m : Machine) (name : String)
    (arguments : List Float) (run : Machine.Run) :
    (∃ steps, m.call p steps name arguments = some run) ↔
      ∃ rounds, definitions.call m rounds name arguments =
        some (run.result.mapError .failed, run.natives) := by
  constructor
  · rintro ⟨steps, hrun⟩
    refine ⟨steps, ?_⟩
    have hcases := h.call_cases m steps name arguments
    cases hcall : definitions.call m steps name arguments with
    | none =>
      rw [hcall, hrun] at hcases
      cases hcases
    | some outcome =>
      obtain ⟨result, natives⟩ := outcome
      rw [hcall] at hcases
      cases result with
      | error stop =>
        cases stop with
        | failed e =>
          obtain ⟨steps', hend⟩ := hcases
          obtain rfl := Machine.call_unique hrun hend
          rfl
        | meaningless => exact hcases.elim
      | ok x =>
        obtain ⟨steps', hend⟩ := hcases
        obtain rfl := Machine.call_unique hrun hend
        rfl
  · rintro ⟨rounds, hcall⟩
    have hcases := h.call_cases m rounds name arguments
    rw [hcall] at hcases
    obtain ⟨result, natives⟩ := run
    cases result with
    | error e => exact hcases
    | ok x => exact hcases

end Represents

namespace Compiler

/-- What can be done to the program. -/
inductive Action where
  | define (d : Definition)
  | declare (p : Prototype)
  | erase (name : String)

/-- The compiler afterwards, whether this succeeds or not. -/
def perform (c : Compiler) : Action → Compiler
  | .define d => (c.define d).2
  | .declare p => c.declare p
  | .erase name => c.erase name

/-- Which definitions there are afterwards. Only one that succeeds takes effect. -/
def definitionsAfter (c : Compiler) (definitions : Definitions) : Action → Definitions
  | .define d =>
    match (c.define d).1 with
    | .ok _ => Function.update definitions d.prototype.name (some d)
    | .error _ => definitions
  | .declare _ => definitions
  | .erase name => Function.update definitions name none

/-- The compiler after a sequence of actions, and the definitions that are in effect then. -/
def history (actions : List Action) : Compiler × Definitions :=
  actions.foldl
    (fun (c, definitions) action => (c.perform action, c.definitionsAfter definitions action))
    (start, fun _ => none)

/-- The names are kept apart, and each function has the body of its definition. -/
structure Faithful (c : Compiler) (definitions : Definitions) : Prop where
  distinct : c.program.Distinct
  represents : Represents c.program definitions

variable {c : Compiler} {definitions : Definitions}

/-- In the beginning nothing is defined. -/
theorem faithful_start : Faithful start fun _ => none :=
  ⟨List.nodup_nil, fun _ => .none⟩

/-- A definition keeps what is in effect if it fails, and takes effect if it succeeds. -/
theorem Faithful.define (h : Faithful c definitions) (d : Definition) :
    Faithful (c.define d).2 (c.definitionsAfter definitions (.define d)) := by
  rw [definitionsAfter]
  rcases c.define_cases d with ⟨e, -, heq⟩ | ⟨table, e, -, -, heq⟩ | ⟨table, lowered, -, hlower, heq⟩
  · rw [heq]
    exact h
  · rw [heq]
    exact ⟨h.distinct, h.represents⟩
  · rw [heq]
    refine ⟨(distinct_declareAll h.distinct _).define _, fun name => ?_⟩
    obtain ⟨t, -, hlowered⟩ := lower_eq_ok_iff.1 hlower
    have hname : lowered.function.name = d.prototype.name := (signature_of_lower_eq_ok hlower).1
    have harity : lowered.function.arity = d.prototype.arity := (signature_of_lower_eq_ok hlower).2
    have hbody : lowered.function.body = some t.builder.body := by rw [hlowered]
    simp only [Machine.bodyOf?_define, bodyOf?_declareAll, hname, Function.update_apply]
    by_cases heq : d.prototype.name = name
    · rw [if_pos heq, if_pos heq.symm, hbody, harity]
      exact .some ⟨_, _, lowered, hlower, rfl, hbody⟩
    · rw [if_neg heq, if_neg (Ne.symm heq)]
      exact h.represents name

/-- Whatever is done, the program stays faithful to the definitions that are in effect. -/
theorem Faithful.perform (h : Faithful c definitions) (action : Action) :
    Faithful (c.perform action) (c.definitionsAfter definitions action) := by
  cases action with
  | define d => exact h.define d
  | declare p =>
    refine ⟨h.distinct.declare _ _, fun name => ?_⟩
    have hbody : Machine.bodyOf? (c.declare p).program name = Machine.bodyOf? c.program name :=
      Machine.bodyOf?_declare ..
    exact hbody ▸ h.represents name
  | erase erased =>
    refine ⟨h.distinct.erase _, fun name => ?_⟩
    have hbody : Machine.bodyOf? (c.erase erased).program name =
        if erased = name then none else Machine.bodyOf? c.program name :=
      Machine.bodyOf?_erase h.distinct erased name
    rw [Compiler.perform, definitionsAfter, hbody, Function.update_apply]
    by_cases heq : erased = name
    · rw [if_pos heq, if_pos heq.symm]
      exact .none
    · rw [if_neg heq, if_neg (Ne.symm heq)]
      exact h.represents name

/-- After any sequence of actions the program is faithful to the definitions in effect. -/
theorem faithful_history (actions : List Action) :
    Faithful (history actions).1 (history actions).2 := by
  induction actions using List.reverseRecOn with
  | nil => exact faithful_start
  | append_singleton earlier action ih =>
    rw [history, List.foldl_append]
    exact ih.perform action

/-- Compilation preserves meaning: after any sequence of definitions, declarations and removals, any
machine brings any call to the end to which its evaluation comes, with the same value or the same
failure and the same calls of native functions; and evaluation never gets to where it has no
meaning. -/
theorem call_iff_evaluates (actions : List Action) (m : Machine) (name : String)
    (arguments : List Float) :
    (∀ run, (∃ steps, m.call (history actions).1.program steps name arguments = some run) ↔
      ∃ rounds, (history actions).2.call m rounds name arguments =
        some (run.result.mapError .failed, run.natives)) ∧
    ∀ rounds natives,
      (history actions).2.call m rounds name arguments ≠ some (.error .meaningless, natives) :=
  have h := (faithful_history actions).represents
  ⟨h.call_iff m name arguments, fun rounds => h.call_ne_meaningless m rounds name arguments⟩

end Compiler

end Kaleidoscope
