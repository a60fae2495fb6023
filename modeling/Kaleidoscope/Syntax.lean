import Kaleidoscope.OperatorTable

/-!
# Syntax trees

Every construct of the language is an expression. A statement defines a function, declares one
that is implemented elsewhere, or asks for the value of an expression.
-/

namespace Kaleidoscope

/-- Expressions. -/
inductive Expr where
  | number (value : Float)
  | var (name : String)
  /-- A prefix operator before its operand. -/
  | unary (operator : Char) (operand : Expr)
  | binary (operator : Char) (left right : Expr)
  | call (callee : String) (arguments : List Expr)
  | conditional (condition consequent alternative : Expr)
  /-- A counted loop. Its step is one unless given. -/
  | loop (name : String) (start finish : Expr) (step : Option Expr) (body : Expr)
  /-- Local variables, bound one after the other. A variable starts as zero unless given. -/
  | locals (bindings : List (String × Option Expr)) (body : Expr)

/-- What a function is called as. -/
inductive Role where
  | plain
  | unary
  | binary (precedence : Nat)
deriving DecidableEq

/-- The signature of a function. -/
structure Prototype where
  name : String
  parameters : List String
  role : Role
deriving DecidableEq

namespace Prototype

/-- The name of the function behind a prefix operator. -/
def unaryName (operator : Char) : String := "unary" ++ String.singleton operator

/-- The name of the function behind a binary operator. -/
def binaryName (operator : Char) : String := "binary" ++ String.singleton operator

/-- The name of the function that a bare expression becomes. No program can spell it. -/
def anonymousName : String := "__anon_expr"

/-- The number of parameters. -/
def arity (p : Prototype) : Nat := p.parameters.length

/-- The operator that the function implements is the last character of its name. -/
def operator? (p : Prototype) : Option Char :=
  match p.role with
  | .plain => none
  | .unary | .binary _ => p.name.toList.getLast?

/-- The signature that a bare expression gets. -/
def anonymous : Prototype := ⟨anonymousName, [], .plain⟩

end Prototype

/-- A signature with the expression that computes the value. -/
structure Definition where
  prototype : Prototype
  body : Expr

/-- Statements. -/
inductive Statement where
  | definition (d : Definition)
  /-- A function that is implemented elsewhere. -/
  | declaration (p : Prototype)
  /-- An expression to be evaluated. -/
  | evaluation (body : Expr)

/-- The signature of the function that a statement gives rise to. -/
def Statement.prototype : Statement → Prototype
  | definition d => d.prototype
  | declaration p => p
  | evaluation _ => .anonymous

end Kaleidoscope
