import Kaleidoscope.OperatorTable
import Kaleidoscope.Ssa.Builder

/-!
# Why a statement has no code

The syntax of a statement may be right and its meaning still undefined: a name nobody knows, a
call with the wrong number of arguments, an assignment to something that is no variable.
-/

namespace Kaleidoscope

/-- What an unknown name was looked up as. -/
inductive NameKind where
  | variable
  | function
  | prefixOperator
deriving DecidableEq

/-- How messages name the kind. -/
def NameKind.text : NameKind → String
  | .variable => "variable"
  | .function => "function"
  | .prefixOperator => "unary operator"

/-- Causes of failure. -/
inductive CompileError where
  | unknown (kind : NameKind) (name : String)
  | arity (callee : String) (expected found : Nat)
  /-- The left operand of an assignment is no variable. -/
  | assignmentTarget
  /-- A binary operator without a function of two parameters behind it. -/
  | unimplemented (operator : Char)
  | precedence (error : PrecedenceError)
  | verify (error : Ssa.VerifyError)

/-- How the error is reported. -/
def CompileError.message : CompileError → String
  | unknown kind name => s!"unknown {kind.text} `{name}`"
  | arity callee expected found =>
    s!"incorrect number of arguments passed to `{callee}`: expected {expected}, found {found}"
  | assignmentTarget => "destination of `=` must be a variable"
  | unimplemented operator => s!"binary operator `{operator}` has no implementing function"
  | precedence error => error.message
  | verify error => error.message

end Kaleidoscope
