import Kaleidoscope.Proofs.Lowering.Steps
import Kaleidoscope.Proofs.Syntax.Induction

/-!
# Valid expressions and their faults

Whether code can be generated for an expression can be told from its tree, given the variables in
scope and the arities of known functions. Here this is said twice: as rules for valid expressions,
which leave the order open, and as the list of the faults of an expression in the order in which
generation comes upon them. The valid expressions are those without a fault.
-/

namespace Kaleidoscope

/-- The variables in scope behind local variables, the newest first. -/
def inside (bindings : List (String × Option Expr)) (names : List String) : List String :=
  (bindings.map Prod.fst).reverse ++ names

/-- What is bound first is what is in scope for the others. -/
theorem inside_cons (binding : String × Option Expr) (bindings : List (String × Option Expr))
    (names : List String) :
    inside (binding :: bindings) names = inside bindings (binding.1 :: names) := by
  rw [inside, inside, List.map_cons, List.reverse_cons, List.append_assoc, List.singleton_append]

namespace Expr

/-- Every variable of the expression is in scope, only variables are assigned to, and every operator
and callee is a known function of as many parameters as it has operands. The variable of a loop is
not yet in scope where the loop starts, and a local variable sees those to its left only. -/
inductive Valid (env : Surroundings) : List String → Expr → Prop where
  | number {names : List String} {value : Float} : Valid env names (.number value)
  | var {names : List String} {name : String} : name ∈ names → Valid env names (.var name)
  | unary {names : List String} {operator : Char} {operand : Expr} : Valid env names operand →
      env.arity? (Prototype.unaryName operator) = some 1 →
      Valid env names (.unary operator operand)
  | assignment {names : List String} {name : String} {right : Expr} : name ∈ names →
      Valid env names right → Valid env names (.binary '=' (.var name) right)
  | binary {names : List String} {operator : Char} {left right : Expr} : operator ≠ '=' →
      Valid env names left → Valid env names right →
      OperatorTable.isBuiltin operator ∨ env.arity? (Prototype.binaryName operator) = some 2 →
      Valid env names (.binary operator left right)
  | call {names : List String} {callee : String} {arguments : List Expr} :
      (∀ e ∈ arguments, Valid env names e) → env.arity? callee = some arguments.length →
      Valid env names (.call callee arguments)
  | conditional {names : List String} {condition consequent alternative : Expr} :
      Valid env names condition → Valid env names consequent → Valid env names alternative →
      Valid env names (.conditional condition consequent alternative)
  | loop {names : List String} {name : String} {start finish body : Expr} {step : Option Expr} :
      Valid env names start → Valid env (name :: names) finish →
      (∀ e ∈ step, Valid env (name :: names) e) → Valid env (name :: names) body →
      Valid env names (.loop name start finish step body)
  | locals {names : List String} {bindings : List (String × Option Expr)} {body : Expr} :
      (∀ before name initial behind, bindings = before ++ (name, some initial) :: behind →
        Valid env (inside before names) initial) →
      Valid env (inside bindings names) body → Valid env names (.locals bindings body)

end Expr

/-- A variable has to be in scope. -/
def variableFaults (names : List String) (name : String) : List CompileError :=
  if name ∈ names then [] else [.unknown .variable name]

namespace Surroundings

/-- A callee has to be known and to have as many parameters as there are arguments. -/
def callFaults (env : Surroundings) (callee : String) (arguments : Nat) : List CompileError :=
  match env.arity? callee with
  | none => [.unknown .function callee]
  | some arity => if arity = arguments then [] else [.arity callee arity arguments]

/-- There has to be a function of one parameter behind a prefix operator. -/
def prefixFaults (env : Surroundings) (operator : Char) : List CompileError :=
  match env.arity? (Prototype.unaryName operator) with
  | none => [.unknown .prefixOperator (String.singleton operator)]
  | some arity => if arity = 1 then [] else [.arity (Prototype.unaryName operator) arity 1]

/-- There has to be a function of two parameters behind a binary operator that is not built in. -/
def binaryFaults (env : Surroundings) (operator : Char) : List CompileError :=
  if OperatorTable.isBuiltin operator ∨ env.arity? (Prototype.binaryName operator) = some 2 then []
  else [.unimplemented operator]

end Surroundings

namespace Expr

mutual

/-- The faults of an expression. Operands and arguments come before what is applied to them. An
assignment has the kind of its target first, then its right side and then the name of its target,
and a loop has its body and its step before its test. -/
def faults (env : Surroundings) (names : List String) : Expr → List CompileError
  | number _ => []
  | var name => variableFaults names name
  | unary operator operand => operand.faults env names ++ env.prefixFaults operator
  | binary operator left right =>
    if operator = '=' then
      match left with
      | .var name => right.faults env names ++ variableFaults names name
      | _ => .assignmentTarget :: right.faults env names
    else left.faults env names ++ (right.faults env names ++ env.binaryFaults operator)
  | call callee arguments =>
    argumentFaults env names arguments ++ env.callFaults callee arguments.length
  | conditional condition consequent alternative =>
    condition.faults env names ++ (consequent.faults env names ++ alternative.faults env names)
  | loop name start finish step body =>
    start.faults env names ++ (body.faults env (name :: names) ++
      (partFaults env (name :: names) step ++ finish.faults env (name :: names)))
  | locals bindings body =>
    bindingFaults env names bindings ++ body.faults env (inside bindings names)

/-- The faults of arguments, from left to right. -/
def argumentFaults (env : Surroundings) (names : List String) : List Expr → List CompileError
  | [] => []
  | first :: rest => first.faults env names ++ argumentFaults env names rest

/-- The faults of an optional part. -/
def partFaults (env : Surroundings) (names : List String) : Option Expr → List CompileError
  | none => []
  | some e => e.faults env names

/-- The faults of the initial values of local variables. Each of them sees the variables before
it. -/
def bindingFaults (env : Surroundings) (names : List String) :
    List (String × Option Expr) → List CompileError
  | [] => []
  | (name, initial) :: rest => partFaults env names initial ++ bindingFaults env (name :: names) rest

end

end Expr

section Faultless

variable {env : Surroundings} {names : List String}

/-- A variable has no fault if it is in scope. -/
theorem variableFaults_eq_nil {name : String} : variableFaults names name = [] ↔ name ∈ names := by
  rw [variableFaults]
  split
  · simp [*]
  · simp [*]

/-- A call has none if the callee has as many parameters as there are arguments. -/
theorem callFaults_eq_nil {callee : String} {arguments : Nat} :
    env.callFaults callee arguments = [] ↔ env.arity? callee = some arguments := by
  rw [Surroundings.callFaults]
  cases env.arity? callee with
  | none => simp
  | some arity => simp

/-- A prefix operator has none if its function has one parameter. -/
theorem prefixFaults_eq_nil {operator : Char} :
    env.prefixFaults operator = [] ↔ env.arity? (Prototype.unaryName operator) = some 1 := by
  rw [Surroundings.prefixFaults]
  cases env.arity? (Prototype.unaryName operator) with
  | none => simp
  | some arity => simp

/-- A binary operator has none if it is built in or its function has two parameters. -/
theorem binaryFaults_eq_nil {operator : Char} : env.binaryFaults operator = [] ↔
    OperatorTable.isBuiltin operator ∨ env.arity? (Prototype.binaryName operator) = some 2 := by
  rw [Surroundings.binaryFaults]
  split
  · simp [*]
  · simp [*]

namespace Expr

/-- Arguments have no faults if none of them has any. -/
theorem argumentFaults_eq_nil {arguments : List Expr} :
    argumentFaults env names arguments = [] ↔ ∀ e ∈ arguments, e.faults env names = [] := by
  induction arguments with
  | nil => simp [argumentFaults]
  | cons first rest ih => simp [argumentFaults, ih]

/-- An optional part has none if its expression has none. -/
theorem partFaults_eq_nil {part : Option Expr} :
    partFaults env names part = [] ↔ ∀ e ∈ part, e.faults env names = [] := by
  cases part with
  | none => simp [partFaults]
  | some e => simp [partFaults]

/-- Initial values have no faults if each of them has none behind the variables to its left. -/
theorem bindingFaults_eq_nil {bindings : List (String × Option Expr)} :
    bindingFaults env names bindings = [] ↔
      ∀ before name initial behind, bindings = before ++ (name, some initial) :: behind →
        initial.faults env (inside before names) = [] := by
  induction bindings generalizing names with
  | nil => simp [bindingFaults]
  | cons binding rest ih =>
    obtain ⟨name, initial⟩ := binding
    rw [bindingFaults, List.append_eq_nil_iff, partFaults_eq_nil, ih]
    constructor
    · rintro ⟨hinitial, hrest⟩ before name' initial' behind heq
      cases before with
      | nil =>
        cases heq
        exact hinitial initial' rfl
      | cons first before =>
        cases heq
        rw [inside_cons]
        exact hrest before name' initial' behind rfl
    · intro h
      refine ⟨fun e he => ?_, fun before name' initial' behind heq => ?_⟩
      · obtain rfl := Option.mem_def.1 he
        exact h [] name e rest rfl
      · have hbehind := h ((name, initial) :: before) name' initial' behind (heq ▸ rfl)
        rwa [inside_cons] at hbehind

/-- An expression is valid exactly if it has no faults. -/
theorem valid_iff_faults_eq_nil (env : Surroundings) (names : List String) (e : Expr) :
    e.Valid env names ↔ e.faults env names = [] := by
  induction e generalizing names with
  | number value => exact ⟨fun _ => rfl, fun _ => .number⟩
  | var name =>
    rw [faults, variableFaults_eq_nil]
    constructor
    · rintro ⟨⟩
      assumption
    · exact .var
  | unary operator operand ih =>
    rw [faults, List.append_eq_nil_iff, ← ih, prefixFaults_eq_nil]
    constructor
    · rintro ⟨⟩
      exact ⟨‹_›, ‹_›⟩
    · exact fun ⟨hoperand, harity⟩ => .unary hoperand harity
  | binary operator left right ihl ihr =>
    by_cases hassign : operator = '='
    · subst hassign
      cases left with
      | var name =>
        rw [faults, if_pos rfl, List.append_eq_nil_iff, ← ihr, variableFaults_eq_nil]
        constructor
        · intro h
          cases h with
          | assignment hname hright => exact ⟨hright, hname⟩
          | binary hne => exact (hne rfl).elim
        · exact fun ⟨hright, hname⟩ => .assignment hname hright
      | _ =>
        simp only [faults, if_true]
        refine ⟨fun h => ?_, nofun⟩
        cases h with
        | binary hne => exact (hne rfl).elim
    · simp only [faults, if_neg hassign]
      rw [List.append_eq_nil_iff, List.append_eq_nil_iff, ← ihl, ← ihr, binaryFaults_eq_nil]
      constructor
      · intro h
        cases h with
        | assignment => exact (hassign rfl).elim
        | binary _ hleft hright harity => exact ⟨hleft, hright, harity⟩
      · exact fun ⟨hleft, hright, harity⟩ => .binary hassign hleft hright harity
  | call callee arguments ih =>
    rw [faults, List.append_eq_nil_iff, argumentFaults_eq_nil, callFaults_eq_nil]
    constructor
    · intro h
      cases h with
      | call harguments harity => exact ⟨fun e he => (ih e he names).1 (harguments e he), harity⟩
    · exact fun ⟨harguments, harity⟩ => .call (fun e he => (ih e he names).2 (harguments e he)) harity
  | conditional condition consequent alternative ihc iht ihe =>
    rw [faults, List.append_eq_nil_iff, List.append_eq_nil_iff, ← ihc, ← iht, ← ihe]
    constructor
    · intro h
      cases h with
      | conditional hcondition hconsequent halternative =>
        exact ⟨hcondition, hconsequent, halternative⟩
    · exact fun ⟨hcondition, hconsequent, halternative⟩ =>
        .conditional hcondition hconsequent halternative
  | loop name start finish step body ihs ihf ihstep ihb =>
    rw [faults, List.append_eq_nil_iff, List.append_eq_nil_iff, List.append_eq_nil_iff, ← ihs, ← ihb,
      partFaults_eq_nil, ← ihf]
    constructor
    · intro h
      cases h with
      | loop hstart hfinish hstep hbody =>
        exact ⟨hstart, hbody, fun e he => (ihstep e he _).1 (hstep e he), hfinish⟩
    · exact fun ⟨hstart, hbody, hstep, hfinish⟩ =>
        .loop hstart hfinish (fun e he => (ihstep e he _).2 (hstep e he)) hbody
  | locals bindings body ihs ihb =>
    have hinitial {before name initial behind}
        (heq : bindings = before ++ (name, some initial) :: behind) :=
      ihs (name, some initial) (heq ▸ List.mem_append_right _ List.mem_cons_self) initial rfl
        (inside before names)
    rw [faults, List.append_eq_nil_iff, bindingFaults_eq_nil, ← ihb]
    constructor
    · intro h
      cases h with
      | locals hbindings hbody =>
        exact ⟨fun before name initial behind heq =>
          (hinitial heq).1 (hbindings before name initial behind heq), hbody⟩
    · exact fun ⟨hbindings, hbody⟩ => .locals (fun before name initial behind heq =>
        (hinitial heq).2 (hbindings before name initial behind heq)) hbody

end Expr

end Faultless

end Kaleidoscope
