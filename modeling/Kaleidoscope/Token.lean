import Kaleidoscope.Number.Text
import Kaleidoscope.Source
import Kaleidoscope.Text.Alphanumeric

/-!
# Tokens

Punctuation and operators are not told apart here: every character that is neither blank nor part
of a word, a number or a comment is a symbol of its own, and the program itself may turn symbols
into operators.
-/

namespace Kaleidoscope

/-- The reserved words. -/
inductive Keyword where
  | defKeyword
  | externKeyword
  | ifKeyword
  | thenKeyword
  | elseKeyword
  | forKeyword
  | inKeyword
  | binaryKeyword
  | unaryKeyword
  | varKeyword
deriving DecidableEq

namespace Keyword

/-- The spelling of a reserved word. -/
def spelling : Keyword → String
  | defKeyword => "def"
  | externKeyword => "extern"
  | ifKeyword => "if"
  | thenKeyword => "then"
  | elseKeyword => "else"
  | forKeyword => "for"
  | inKeyword => "in"
  | binaryKeyword => "binary"
  | unaryKeyword => "unary"
  | varKeyword => "var"

/-- Every reserved word. -/
def all : List Keyword :=
  [defKeyword, externKeyword, ifKeyword, thenKeyword, elseKeyword, forKeyword, inKeyword,
   binaryKeyword, unaryKeyword, varKeyword]

/-- The reserved word with the given spelling. -/
def ofSpelling? (word : String) : Option Keyword := all.find? (·.spelling = word)

end Keyword

/-- The words and symbols of a program. -/
inductive Token where
  | number (value : Float)
  | identifier (name : String)
  | keyword (word : Keyword)
  | symbol (c : Char)
  /-- A run of digits and points that is no number. -/
  | malformed
deriving DecidableEq

namespace Token

/-- How messages name a token. -/
def text : Token → String
  | number value => s!"number `{Number.text value}`"
  | identifier name => s!"identifier `{name}`"
  | keyword word => s!"`{word.spelling}`"
  | symbol c => s!"`{c}`"
  | malformed => "invalid token"

/-- May the character name an operator? It must be neither a control character nor a letter or a
digit of any script, nor one of the delimiters that open a group, separate operands or end a
statement. -/
def isOperatorChar (c : Char) : Bool :=
  c ≠ '(' && c ≠ ',' && c ≠ ';' && !Text.isAlphanumeric c && 0x20 ≤ c.toNat &&
    !(0x7F ≤ c.toNat && c.toNat ≤ 0x9F)

/-- The operator that a token may name. -/
def operator? : Token → Option Char
  | symbol c => if isOperatorChar c then some c else none
  | _ => none

/-- Does the token end a statement? -/
def endsStatement (t : Token) : Bool := t = symbol ';'

/-- Does the token begin a definition or a declaration? No statement can contain one elsewhere. -/
def opensDefinition (t : Token) : Bool := t = keyword .defKeyword || t = keyword .externKeyword

end Token

/-- A token with its place in the source. -/
structure Lexeme where
  token : Token
  span : Span

/-- How messages name the token that comes next, or the lack of one. -/
def describeNext : Option Token → String
  | some token => token.text
  | none => "end of input"

end Kaleidoscope
