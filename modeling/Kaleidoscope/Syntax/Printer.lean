import Kaleidoscope.Syntax

/-!
# Trees as text

Trees are written with the operator or the construct first and every compound in parentheses.
-/

namespace Kaleidoscope

mutual

/-- The text of an expression. -/
def Expr.text : Expr → String
  | .number value => Number.text value
  | .var name => name
  | .unary operator operand => s!"({operator} {operand.text})"
  | .binary operator left right => s!"({operator} {left.text} {right.text})"
  | .call callee arguments => s!"(call {callee}{Expr.argumentsText arguments})"
  | .conditional condition consequent alternative =>
    s!"(if {condition.text} {consequent.text} {alternative.text})"
  | .loop name start finish none body =>
    s!"(for {name} {start.text} {finish.text} {body.text})"
  | .loop name start finish (some step) body =>
    s!"(for {name} {start.text} {finish.text} {step.text} {body.text})"
  | .locals bindings body => s!"(var ({Expr.bindingsText bindings}) {body.text})"

/-- The arguments of a call, each after a blank. -/
def Expr.argumentsText : List Expr → String
  | [] => ""
  | argument :: rest => s!" {argument.text}" ++ Expr.argumentsText rest

/-- Bindings with a blank between them. -/
def Expr.bindingsText : List (String × Option Expr) → String
  | [] => ""
  | [(name, none)] => name
  | [(name, some value)] => s!"({name} {value.text})"
  | (name, none) :: rest => s!"{name} " ++ Expr.bindingsText rest
  | (name, some value) :: rest => s!"({name} {value.text}) " ++ Expr.bindingsText rest

end

/-- The text of a signature. Only a binary operator shows its precedence. -/
def Prototype.text (p : Prototype) : String :=
  let parameters := " ".intercalate p.parameters
  let signature := s!"{p.name}({parameters})"
  match p.role with
  | .binary precedence => s!"{signature} prec {precedence}"
  | .plain | .unary => signature

/-- The text of a statement. -/
def Statement.text : Statement → String
  | definition d => s!"(def {d.prototype.text} {d.body.text})"
  | declaration p => s!"(extern {p.text})"
  | evaluation body => body.text

end Kaleidoscope
