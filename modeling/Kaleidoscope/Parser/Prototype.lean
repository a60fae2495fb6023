import Kaleidoscope.Parser.Reading

/-!
# Reading signatures

A signature begins with the name of a plain function, or says that it makes a symbol a prefix or
a binary operator. Built-in operators cannot be taken over. A binary operator may state its
precedence, which has to be in range before it is taken.
-/

namespace Kaleidoscope.Parser

open Reading (done fail past unexpected)

/-- The longest run of identifiers. -/
def names (tokens : List Lexeme) : Reading tokens (List String) :=
  match tokens with
  | ⟨.identifier name, span⟩ :: more => past ⟨.identifier name, span⟩ ((names more).map (name :: ·))
  | tokens => done [] tokens

/-- Names in parentheses, without separators. -/
def parameters (tokens : List Lexeme) : Reading tokens (List String) :=
  expect (.symbol '(') .parameters tokens fun rest _ =>
  (names rest).andThen fun found rest _ =>
  expect (.symbol ')') .parametersEnd rest fun rest _ => done found rest

/-- The precedence that a numeral asks for: its whole part, if its value is in range. -/
def precedence? (value : Float) : Option Nat :=
  match Number.magnitude value with
  | .finite x =>
    if !Number.isNegative value && x.atLeast OperatorTable.least &&
        x.atMost OperatorTable.greatest then some x.floor
    else none
  | _ => none

/-- The stated precedence of a binary operator, or the standard one. -/
def precedence (tokens : List Lexeme) : Reading tokens Nat :=
  match tokens with
  | ⟨.number value, span⟩ :: more =>
    match precedence? value with
    | some n => past ⟨.number value, span⟩ (done n more)
    | none => fail (.precedence ⟨value⟩) _
  | tokens => done OperatorTable.standard tokens

/-- The signature of a prefix operator, from its symbol on. -/
def unaryPrototype (tokens : List Lexeme) : Reading tokens Prototype :=
  match tokens with
  | [] => unexpected .prefixOperator []
  | first :: more =>
    match first.token.operator? with
    | none => unexpected .prefixOperator (first :: more)
    | some operator => past first <|
        (parameters more).andThen fun found rest _ =>
        if found.length = 1 then done ⟨Prototype.unaryName operator, found, .unary⟩ rest
        else fail (.operatorArity 1 found.length) rest

/-- The signature of a binary operator, from its symbol on. -/
def binaryPrototype (tokens : List Lexeme) : Reading tokens Prototype :=
  match tokens with
  | [] => unexpected .binaryOperator []
  | first :: more =>
    match first.token.operator? with
    | none => unexpected .binaryOperator (first :: more)
    | some operator =>
      if OperatorTable.isBuiltin operator then unexpected .binaryOperator (first :: more)
      else past first <|
        (precedence more).andThen fun n rest _ =>
        (parameters rest).andThen fun found rest _ =>
        if found.length = 2 then done ⟨Prototype.binaryName operator, found, .binary n⟩ rest
        else fail (.operatorArity 2 found.length) rest

/-- A signature. -/
def prototype (tokens : List Lexeme) : Reading tokens Prototype :=
  match tokens with
  | ⟨.identifier name, span⟩ :: more => past ⟨.identifier name, span⟩ <|
      (parameters more).andThen fun found rest _ => done ⟨name, found, .plain⟩ rest
  | ⟨.keyword .unaryKeyword, span⟩ :: more => past ⟨.keyword .unaryKeyword, span⟩ (unaryPrototype more)
  | ⟨.keyword .binaryKeyword, span⟩ :: more =>
    past ⟨.keyword .binaryKeyword, span⟩ (binaryPrototype more)
  | tokens => unexpected .functionName tokens

end Kaleidoscope.Parser
