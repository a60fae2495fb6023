import Kaleidoscope.Syntax
import Kaleidoscope.Token

/-!
# Why a statement is not accepted

A grammar violation names the construct that had to come next and the token that came instead.
-/

namespace Kaleidoscope

/-- What the grammar asks for at some point of a statement. -/
inductive Construct where
  | expression
  | groupEnd
  | argumentEnd
  | consequent
  | alternative
  | loopVariable
  | loopStart
  | loopFinish
  | loopBody
  | localVariable
  | localBody
  | functionName
  | prefixOperator
  | binaryOperator
  | parameters
  | parametersEnd
  | terminator
deriving DecidableEq

/-- How messages name a construct. -/
def Construct.text : Construct → String
  | expression => "an expression"
  | groupEnd => "`)`"
  | argumentEnd => "`)` or `,` in argument list"
  | consequent => "`then`"
  | alternative => "`else`"
  | loopVariable => "identifier after `for`"
  | loopStart => "`=` after `for`"
  | loopFinish => "`,` after for start value"
  | loopBody => "`in` after `for`"
  | localVariable => "identifier after `var`"
  | localBody => "`in` after `var`"
  | functionName => "function name in prototype"
  | prefixOperator => "a unary operator"
  | binaryOperator => "a user-definable binary operator"
  | parameters => "`(` in prototype"
  | parametersEnd => "`)` in prototype"
  | terminator => "`;` after top-level statement"

/-- Causes of rejection. -/
inductive ParseError where
  /-- The next token, or the end of the input, is not what has to come. -/
  | unexpected (expected : Construct) (found : Option Token)
  /-- An operator is defined with the wrong number of parameters. -/
  | operatorArity (expected found : Nat)
  | precedence (error : PrecedenceError)

/-- How the error is reported. -/
def ParseError.message : ParseError → String
  | unexpected expected found => s!"expected {expected.text}, found {describeNext found}"
  | operatorArity expected found =>
    s!"invalid number of operands for operator: expected {expected}, found {found}"
  | precedence error => error.message

end Kaleidoscope
