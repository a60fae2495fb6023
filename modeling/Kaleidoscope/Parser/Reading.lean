import Kaleidoscope.Parser.Error

/-!
# Reading from a list of tokens

A reader takes tokens from the front of a list. Whether it accepts or rejects, what it leaves is
an end piece of the list: nothing is reordered or invented, and a reader that goes on where
another one stopped works on a list that is no longer. After a rejection the first token left is
the one that does not fit.
-/

namespace Kaleidoscope

/-- The result of reading from the front of `tokens`. -/
inductive Reading (tokens : List Lexeme) (α : Type) where
  | accepted (value : α) (rest : List Lexeme) (suffix : rest <:+ tokens)
  | rejected (error : ParseError) (rest : List Lexeme) (suffix : rest <:+ tokens)

namespace Reading

variable {α β : Type} {tokens : List Lexeme}

/-- Accept without taking a token. -/
def done (value : α) (tokens : List Lexeme) : Reading tokens α :=
  .accepted value tokens List.suffix_rfl

/-- Reject what comes next. -/
def fail (error : ParseError) (tokens : List Lexeme) : Reading tokens α :=
  .rejected error tokens List.suffix_rfl

/-- Reject the next token, because `expected` has to come. -/
def unexpected (expected : Construct) (tokens : List Lexeme) : Reading tokens α :=
  fail (.unexpected expected (tokens.head?.map Lexeme.token)) tokens

/-- A reading of an end piece, as a reading of the whole. -/
def within {rest : List Lexeme} (suffix : rest <:+ tokens) : Reading rest α → Reading tokens α
  | accepted value left h => .accepted value left (h.trans suffix)
  | rejected error left h => .rejected error left (h.trans suffix)

/-- A reading of what follows the token `first`. -/
def past (first : Lexeme) (reading : Reading tokens α) : Reading (first :: tokens) α :=
  reading.within (List.suffix_cons first tokens)

/-- Go on reading where an accepted reading stopped. -/
def andThen (reading : Reading tokens α)
    (next : α → (rest : List Lexeme) → rest.length ≤ tokens.length → Reading rest β) :
    Reading tokens β :=
  match reading with
  | accepted value rest suffix => (next value rest suffix.length_le).within suffix
  | rejected error rest suffix => .rejected error rest suffix

/-- Change the value of an accepted reading. -/
def map (f : α → β) : Reading tokens α → Reading tokens β
  | accepted value rest suffix => .accepted (f value) rest suffix
  | rejected error rest suffix => .rejected error rest suffix

end Reading

/-- Take the token `wanted`, which is what `construct` has to begin with here, and go on. -/
def expect {α : Type} (wanted : Token) (construct : Construct) (tokens : List Lexeme)
    (next : (rest : List Lexeme) → rest.length < tokens.length → Reading rest α) :
    Reading tokens α :=
  match tokens with
  | [] => .unexpected construct []
  | first :: rest =>
    if first.token = wanted then .past first (next rest (Nat.lt_succ_self _))
    else .unexpected construct (first :: rest)

/-- Take the token `wanted` and go on behind it, if it comes next, and read `otherwise` if not. -/
def ifNext {α : Type} (wanted : Token) (tokens : List Lexeme)
    (next : (rest : List Lexeme) → rest.length < tokens.length → Reading rest α)
    (otherwise : Reading tokens α) : Reading tokens α :=
  match tokens with
  | [] => otherwise
  | first :: rest =>
    if first.token = wanted then .past first (next rest (Nat.lt_succ_self _)) else otherwise

/-- Take an identifier and go on with its name. -/
def expectName {α : Type} (construct : Construct) (tokens : List Lexeme)
    (next : String → (rest : List Lexeme) → rest.length < tokens.length → Reading rest α) :
    Reading tokens α :=
  match tokens with
  | ⟨.identifier name, span⟩ :: rest =>
    .past ⟨.identifier name, span⟩ (next name rest (Nat.lt_succ_self _))
  | tokens => .unexpected construct tokens

end Kaleidoscope
