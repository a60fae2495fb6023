import Kaleidoscope.Compiler.Lowering

/-!
# Compilation across statements

Three things outlive a statement: the operator table, the signatures seen so far and the program.
A definition makes its signature and its precedence known before its body is generated, so the body
may use them. If generation fails, the operator gets its earlier precedence back and the program
is left alone.
-/

namespace Kaleidoscope

/-- What is known when a statement is compiled. -/
structure Compiler where
  operators : OperatorTable
  prototypes : Dictionary String Prototype
  program : Ssa.Program

namespace Compiler

/-- Only the built-in operators are known. -/
def start : Compiler := ⟨.seed, .empty, .empty⟩

/-- Make a signature known, and declare the function unless the program has it. -/
def declare (c : Compiler) (p : Prototype) : Compiler :=
  { c with
    prototypes := c.prototypes.insert p.name p
    program := c.program.declare p.name p.parameters }

/-- The operator table as the body of a definition sees it. -/
def installOperator (table : OperatorTable) (p : Prototype) :
    Except PrecedenceError OperatorTable :=
  match p.role, p.operator? with
  | .binary precedence, some symbol => table.define symbol precedence
  | _, _ => .ok table

/-- Undo what `installOperator` did to the earlier table `before`. -/
def removeOperator (before table : OperatorTable) (p : Prototype) : OperatorTable :=
  match p.role, p.operator? with
  | .binary _, some symbol => table.restore symbol (before.lookup symbol)
  | _, _ => table

/-- Declare every callee that the program does not have. -/
def declareAll (program : Ssa.Program) (callees : List Prototype) : Ssa.Program :=
  callees.foldl (fun program p => program.declare p.name p.parameters) program

/-- Compile a definition and store the function in place of an earlier one of its name. The state
afterwards is returned whether this succeeds or not. -/
def define (c : Compiler) (d : Definition) : Except CompileError Ssa.Function × Compiler :=
  match installOperator c.operators d.prototype with
  | .error e => (.error (.precedence e), c)
  | .ok table =>
    let prototypes := c.prototypes.insert d.prototype.name d.prototype
    match lower ⟨d.prototype, c.program, prototypes⟩ d.body with
    | .error e =>
      (.error e, ⟨removeOperator c.operators table d.prototype, prototypes, c.program⟩)
    | .ok lowered =>
      let program := (declareAll c.program lowered.declarations).define lowered.function
      (.ok lowered.function, ⟨table, prototypes, program⟩)

/-- The function that a declared signature stands for: the one that the program has by now. -/
def declared (c : Compiler) (p : Prototype) : Ssa.Function :=
  (c.program.find? p.name).getD ⟨p.name, p.parameters, none⟩

/-- Compile a statement. -/
def compile (c : Compiler) : Statement → Except CompileError Ssa.Function × Compiler
  | .definition d => c.define d
  | .declaration p => let after := c.declare p; (.ok (after.declared p), after)
  | .evaluation body => c.define ⟨.anonymous, body⟩

/-- Remove a function from the program. -/
def erase (c : Compiler) (name : String) : Compiler :=
  { c with program := c.program.erase name }

end Compiler

end Kaleidoscope
