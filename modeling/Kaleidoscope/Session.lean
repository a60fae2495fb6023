import Kaleidoscope.Compiler
import Kaleidoscope.Machine
import Kaleidoscope.Parser.Statement
import Kaleidoscope.Ssa.Listing
import Kaleidoscope.Token.Lexer

/-!
# Sessions

A session compiles and runs sources statement by statement. Definitions and operators stay known
from one source to the next. A statement that fails is reported and passed over. A bare expression
is compiled to a function, run, and removed again whether its run succeeds or not.
-/

namespace Kaleidoscope

open Machine (NativeCall Run RuntimeError)

/-- Why a statement failed. -/
inductive StatementError where
  | parse (error : ParseError)
  | compile (error : CompileError)
  | runtime (error : RuntimeError)

/-- How the error is reported. -/
def StatementError.message : StatementError → String
  | parse error => error.message
  | compile error => error.message
  | runtime error => error.message

/-- What a statement that did not fail achieved. -/
inductive Outcome where
  /-- A function was compiled. -/
  | defined (name : String)
  | declared (name : String)
  | evaluated (value : Float)
deriving DecidableEq

/-- The settings of a session. -/
structure Options where
  /-- List every function that is compiled. -/
  list : Bool
  /-- Run bare expressions. -/
  execute : Bool

/-- Bare expressions are run, and nothing is listed. -/
def Options.standard : Options := ⟨false, true⟩

/-- What is kept from one statement to the next. -/
structure Session where
  compiler : Compiler
  machine : Machine
  options : Options

/-- What running a statement leads to. -/
structure Report where
  result : Except StatementError Outcome
  /-- The native calls of its run. -/
  natives : List NativeCall
  /-- The listing of its function. -/
  listing : String

namespace Session

/-- A session that knows nothing but the built-in operators. -/
def start (options : Options) (machine : Machine) : Session := ⟨.start, machine, options⟩

/-- A statement that was not run. -/
def withoutRun (result : Except StatementError Outcome) (listing : String) : Report :=
  ⟨result, [], listing⟩

/-- The report on an expression that was run. -/
def afterRun (run : Run) (listing : String) : Report :=
  match run.result with
  | .error e => ⟨.error (.runtime e), run.natives, listing⟩
  | .ok value => ⟨.ok (.evaluated value), run.natives, listing⟩

/-- Compile a statement, and run it if it is a bare expression. Every run has `fuel` steps, and
nothing comes back if that is not enough. -/
def statement (s : Session) (fuel : Nat) (statement : Statement) : Option (Report × Session) :=
  let (compiled, compiler) := s.compiler.compile statement
  match compiled with
  | .error e => some (withoutRun (.error (.compile e)) "", { s with compiler := compiler })
  | .ok f =>
    let listing := if s.options.list then f.listing else ""
    match statement with
    | .definition _ => some (withoutRun (.ok (.defined f.name)) listing, { s with compiler := compiler })
    | .declaration _ => some (withoutRun (.ok (.declared f.name)) listing, { s with compiler := compiler })
    | .evaluation _ =>
      let after := { s with compiler := compiler.erase f.name }
      if s.options.execute then
        (s.machine.call compiler.program fuel f.name []).map fun run => (afterRun run listing, after)
      else some (withoutRun (.ok (.defined f.name)) listing, after)

/-- Run the statements of a source of `size` bytes. Each report is placed at the whole statement, or
at the token that does not fit if there is no statement. -/
def statements (s : Session) (fuel size : Nat) (tokens : List Lexeme) :
    Option (List (Located Report) × Session) :=
  match Parser.next? s.compiler.operators size tokens with
  | none => some ([], s)
  | some ⟨found, rest, _⟩ =>
    match found with
    | .error ⟨error, span⟩ => do
      let (reports, last) ← statements s fuel size rest
      return (⟨withoutRun (.error (.parse error)) "", span⟩ :: reports, last)
    | .ok ⟨found, span⟩ => do
      let (report, next) ← s.statement fuel found
      let (reports, last) ← statements next fuel size rest
      return (⟨report, span⟩ :: reports, last)
termination_by tokens.length

/-- Run a source. -/
def run (s : Session) (fuel : Nat) (text : String) : Option (List (Located Report) × Session) :=
  s.statements fuel (Source.size text.toList) (Lexer.tokens text)

end Session

namespace Report

/-- The outcomes of the statements that succeeded, in order. -/
def outcomes (reports : List (Located Report)) : List Outcome :=
  reports.filterMap fun r => r.value.result.toOption

/-- One message for each statement that failed, in order. -/
def diagnostics (reports : List (Located Report)) : List Diagnostic :=
  reports.filterMap fun r =>
    match r.value.result with
    | .error e => some ⟨e.message, r.span⟩
    | .ok _ => none

/-- What native functions wrote. -/
def output (reports : List (Located Report)) : String :=
  String.join (reports.flatMap fun r => r.value.natives.map (·.output))

/-- The listings of all functions that were compiled. -/
def listings (reports : List (Located Report)) : String :=
  String.join (reports.map (·.value.listing))

end Report

end Kaleidoscope
