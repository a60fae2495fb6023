import Kaleidoscope.Parser.Reading

/-!
# Reading expressions

Binary operators are folded by precedence: an operator takes the operand on its right unless the
operator behind that operand binds more tightly, so equal precedences group to the left. Every
other visible symbol in front of an operand is a prefix operator. Each function below either takes
a token before it calls another one, or calls one that stands lower in the order `primary`,
`unary`, `expression`, `operands`, `arguments`; hence reading ends.
-/

namespace Kaleidoscope.Parser

open Reading (done past unexpected)

mutual

/-- An operand and the operators behind it, whatever they are. -/
def expression (table : OperatorTable) (tokens : List Lexeme) : Reading tokens Expr :=
  (unary table tokens).andThen fun left rest _ => fold table 0 left rest
termination_by 5 * tokens.length + 2

/-- Fold `left` with the operators that follow, as long as they bind at least as tightly as
`weakest`. -/
def fold (table : OperatorTable) (weakest : Nat) (left : Expr) (tokens : List Lexeme) :
    Reading tokens Expr :=
  match tokens with
  | ⟨.symbol c, span⟩ :: more =>
    match table.lookup c with
    | none => done left _
    | some precedence =>
      if precedence < weakest then done left _
      else past ⟨.symbol c, span⟩ <|
        (unary table more).andThen fun operand rest _ =>
        (tighter table precedence operand rest).andThen fun right rest _ =>
        fold table weakest (.binary c left right) rest
  | tokens => done left tokens
termination_by 5 * tokens.length

/-- Let an operator that binds more tightly than `precedence` have `operand` as its left one. -/
def tighter (table : OperatorTable) (precedence : Nat) (operand : Expr) (tokens : List Lexeme) :
    Reading tokens Expr :=
  match tokens with
  | ⟨.symbol c, span⟩ :: more =>
    if (table.lookup c).any (precedence < ·) then
      fold table (precedence + 1) operand (⟨.symbol c, span⟩ :: more)
    else done operand _
  | tokens => done operand tokens
termination_by 5 * tokens.length + 1

/-- Prefix operators and their operand. -/
def unary (table : OperatorTable) (tokens : List Lexeme) : Reading tokens Expr :=
  match tokens with
  | [] => unexpected .expression []
  | first :: more =>
    match first.token.operator? with
    | some operator => past first <|
        (unary table more).andThen fun operand rest _ => done (.unary operator operand) rest
    | none => primary table (first :: more)
termination_by 5 * tokens.length + 1

/-- An expression that is no operator application. -/
def primary (table : OperatorTable) (tokens : List Lexeme) : Reading tokens Expr :=
  match tokens with
  | ⟨.number value, span⟩ :: more => past ⟨.number value, span⟩ (done (.number value) more)
  | ⟨.identifier name, span⟩ :: ⟨.symbol '(', span'⟩ :: more =>
    past ⟨.identifier name, span⟩ <| past ⟨.symbol '(', span'⟩ <|
      (arguments table more).andThen fun operands rest _ => done (.call name operands) rest
  | ⟨.identifier name, span⟩ :: more => past ⟨.identifier name, span⟩ (done (.var name) more)
  | ⟨.symbol '(', span⟩ :: more => past ⟨.symbol '(', span⟩ <|
      (expression table more).andThen fun inner rest _ =>
      expect (.symbol ')') .groupEnd rest fun rest _ => done inner rest
  | ⟨.keyword .ifKeyword, span⟩ :: more => past ⟨.keyword .ifKeyword, span⟩ <|
      (expression table more).andThen fun condition rest _ =>
      expect (.keyword .thenKeyword) .consequent rest fun rest _ =>
      (expression table rest).andThen fun consequent rest _ =>
      expect (.keyword .elseKeyword) .alternative rest fun rest _ =>
      (expression table rest).andThen fun alternative rest _ =>
      done (.conditional condition consequent alternative) rest
  | ⟨.keyword .forKeyword, span⟩ :: more => past ⟨.keyword .forKeyword, span⟩ <|
      expectName .loopVariable more fun name rest _ =>
      expect (.symbol '=') .loopStart rest fun rest _ =>
      (expression table rest).andThen fun start rest _ =>
      expect (.symbol ',') .loopFinish rest fun rest _ =>
      (expression table rest).andThen fun finish rest _ =>
      (optional table ',' rest).andThen fun step rest _ =>
      expect (.keyword .inKeyword) .loopBody rest fun rest _ =>
      (expression table rest).andThen fun body rest _ =>
      done (.loop name start finish step body) rest
  | ⟨.keyword .varKeyword, span⟩ :: more => past ⟨.keyword .varKeyword, span⟩ <|
      (bindings table more).andThen fun bound rest _ =>
      expect (.keyword .inKeyword) .localBody rest fun rest _ =>
      (expression table rest).andThen fun body rest _ => done (.locals bound body) rest
  | tokens => unexpected .expression tokens
termination_by 5 * tokens.length

/-- The arguments of a call, up to and with the closing parenthesis. -/
def arguments (table : OperatorTable) (tokens : List Lexeme) : Reading tokens (List Expr) :=
  match tokens with
  | ⟨.symbol ')', span⟩ :: more => past ⟨.symbol ')', span⟩ (done [] more)
  | tokens => operands table tokens
termination_by 5 * tokens.length + 4

/-- At least one argument, up to and with the closing parenthesis. -/
def operands (table : OperatorTable) (tokens : List Lexeme) : Reading tokens (List Expr) :=
  (expression table tokens).andThen fun operand rest _ =>
  ifNext (.symbol ')') rest (fun rest _ => done [operand] rest) <|
  expect (.symbol ',') .argumentEnd rest fun rest _ =>
  (operands table rest).map (operand :: ·)
termination_by 5 * tokens.length + 3

/-- The expression behind `mark`, if the mark comes next. -/
def optional (table : OperatorTable) (mark : Char) (tokens : List Lexeme) :
    Reading tokens (Option Expr) :=
  ifNext (.symbol mark) tokens (fun rest _ => (expression table rest).map some) (done none tokens)
termination_by 5 * tokens.length

/-- At least one local variable, each with its initial value if it has one. -/
def bindings (table : OperatorTable) (tokens : List Lexeme) :
    Reading tokens (List (String × Option Expr)) :=
  expectName .localVariable tokens fun name rest _ =>
  (optional table '=' rest).andThen fun value rest _ =>
  ifNext (.symbol ',') rest (fun rest _ => (bindings table rest).map ((name, value) :: ·)) <|
  done [(name, value)] rest
termination_by 5 * tokens.length

end

end Kaleidoscope.Parser
