import Kaleidoscope.Number.Literal
import Kaleidoscope.Token

/-!
# From text to tokens

Blanks and comments separate tokens and are dropped. A word is the longest run of letters and
digits that begins with a letter, a number the longest run of digits and points, and every other
character stands alone.
-/

namespace Kaleidoscope.Lexer

/-- The blanks of the language. -/
def isBlank (c : Char) : Bool := c = ' ' || c = '\t' || c = '\n' || c = '\r' || c = '\x0c'

/-- A reserved word, or else an identifier. -/
def word (cs : List Char) : Token :=
  let spelling := String.ofList cs
  match Keyword.ofSpelling? spelling with
  | some k => .keyword k
  | none => .identifier spelling

/-- A number, or else a malformed token. -/
def numeral (cs : List Char) : Token :=
  match Number.ofLiteral? cs with
  | some value => .number value
  | none => .malformed

/-- What the first character of a text begins. -/
inductive Piece where
  /-- Characters without a token. -/
  | skipped (cs : List Char)
  | found (token : Token) (cs : List Char)

/-- The characters of a piece. -/
def Piece.characters : Piece → List Char
  | skipped cs => cs
  | found _ cs => cs

/-- The piece at the start of the text `c :: rest`. -/
def piece (c : Char) (rest : List Char) : Piece :=
  if isBlank c then .skipped [c]
  else if c = '#' then .skipped (c :: rest.takeWhile (· ≠ '\n'))
  else if c.isAlpha then
    let cs := c :: rest.takeWhile Char.isAlphanum
    .found (word cs) cs
  else if Number.isLiteralChar c then
    let cs := c :: rest.takeWhile Number.isLiteralChar
    .found (numeral cs) cs
  else .found (.symbol c) [c]

/-- A piece is never empty. -/
theorem length_characters_pos (c : Char) (rest : List Char) :
    0 < (piece c rest).characters.length := by
  unfold piece
  repeat' split
  all_goals simp [Piece.characters]

/-- The tokens of a text that starts at a byte offset. -/
def scan (offset : Nat) (text : List Char) : List Lexeme :=
  match text with
  | [] => []
  | c :: rest =>
    let found := piece c rest
    let stop := offset + Source.size found.characters
    let later := scan stop ((c :: rest).drop found.characters.length)
    match found with
    | .skipped _ => later
    | .found token _ => ⟨token, ⟨offset, stop⟩⟩ :: later
termination_by text.length
decreasing_by
  have := length_characters_pos c rest
  simp only [List.length_drop, List.length_cons]
  omega

/-- The tokens of a text. -/
def tokens (text : String) : List Lexeme := scan 0 text.toList

end Kaleidoscope.Lexer
