import Kaleidoscope.Proofs.Syntax.Phrase

/-!
# Writing trees

Every tree can be written: with parentheses around every operand of an operator, no operand is
grouped otherwise than in the tree, whatever the precedences are.
-/

namespace Kaleidoscope.Phrase

mutual

/-- A tree as a phrase, with parentheses around every operand of an operator. -/
def bracket : Expr → Phrase
  | .number value => number value
  | .var name => var name
  | .unary operator operand => unary operator (group (bracket operand))
  | .binary operator left right => binary operator (group (bracket left)) (group (bracket right))
  | .call callee arguments => call callee (bracketArguments arguments)
  | .conditional condition consequent alternative =>
    conditional (bracket condition) (bracket consequent) (bracket alternative)
  | .loop name start finish step body =>
    loop name (bracket start) (bracket finish) (bracketPart step) (bracket body)
  | .locals bindings body => locals (bracketBindings bindings) (bracket body)

/-- Arguments as phrases. -/
def bracketArguments : List Expr → List Phrase
  | [] => []
  | first :: rest => bracket first :: bracketArguments rest

/-- An optional part as a phrase. -/
def bracketPart : Option Expr → Option Phrase
  | none => none
  | some part => some (bracket part)

/-- Initial values as phrases. -/
def bracketBindings : List (String × Option Expr) → List (String × Option Phrase)
  | [] => []
  | (name, value) :: rest => (name, bracketPart value) :: bracketBindings rest

end

mutual

/-- Parentheses do not change what is meant. -/
theorem erase_bracket : (e : Expr) → (bracket e).erase = e
  | .number _ | .var _ => rfl
  | .unary _ operand => by rw [bracket, erase, erase, erase_bracket operand]
  | .binary _ left right => by
    rw [bracket, erase, erase, erase, erase_bracket left, erase_bracket right]
  | .call _ arguments => by rw [bracket, erase, eraseArguments_bracket arguments]
  | .conditional condition consequent alternative => by
    rw [bracket, erase, erase_bracket condition, erase_bracket consequent,
      erase_bracket alternative]
  | .loop _ start finish step body => by
    rw [bracket, erase, erase_bracket start, erase_bracket finish, erasePart_bracket step,
      erase_bracket body]
  | .locals bindings body => by
    rw [bracket, erase, eraseBindings_bracket bindings, erase_bracket body]

/-- The parentheses of arguments can be taken away. -/
theorem eraseArguments_bracket :
    (arguments : List Expr) → eraseArguments (bracketArguments arguments) = arguments
  | [] => rfl
  | first :: rest => by
    rw [bracketArguments, eraseArguments, erase_bracket first, eraseArguments_bracket rest]

/-- The parentheses of an optional part can be taken away. -/
theorem erasePart_bracket : (part : Option Expr) → erasePart (bracketPart part) = part
  | none => rfl
  | some part => by rw [bracketPart, erasePart, erase_bracket part]

/-- The parentheses of initial values can be taken away. -/
theorem eraseBindings_bracket :
    (bindings : List (String × Option Expr)) → eraseBindings (bracketBindings bindings) = bindings
  | [] => rfl
  | (name, value) :: rest => by
    rw [bracketBindings, eraseBindings, erasePart_bracket value, eraseBindings_bracket rest]

end

mutual

/-- Parentheses stand wherever they have to. -/
theorem bracketed_bracket (table : OperatorTable) :
    (e : Expr) → (bracket e).Every (Bracketed table)
  | .number _ => .number trivial
  | .var _ => .var trivial
  | .unary _ operand => .unary rfl (.group trivial (bracketed_bracket table operand))
  | .binary _ left right =>
    .binary ⟨fun _ _ => ⟨nofun, nofun⟩, rfl⟩ (.group trivial (bracketed_bracket table left))
      (.group trivial (bracketed_bracket table right))
  | .call _ arguments => .call trivial (bracketed_arguments table arguments)
  | .conditional condition consequent alternative =>
    .conditional trivial (bracketed_bracket table condition) (bracketed_bracket table consequent)
      (bracketed_bracket table alternative)
  | .loop _ start finish step body =>
    .loop trivial (bracketed_bracket table start) (bracketed_bracket table finish)
      (bracketed_part table step) (bracketed_bracket table body)
  | .locals bindings body =>
    .locals trivial (bracketed_bindings table bindings) (bracketed_bracket table body)

/-- Parentheses stand wherever they have to in arguments. -/
theorem bracketed_arguments (table : OperatorTable) :
    (arguments : List Expr) → ∀ p ∈ bracketArguments arguments, p.Every (Bracketed table)
  | [] => nofun
  | first :: rest =>
    List.forall_mem_cons.2 ⟨bracketed_bracket table first, bracketed_arguments table rest⟩

/-- Parentheses stand wherever they have to in an optional part. -/
theorem bracketed_part (table : OperatorTable) :
    (part : Option Expr) → ∀ p ∈ bracketPart part, p.Every (Bracketed table)
  | none => nofun
  | some part => fun _ h => Option.some.inj h ▸ bracketed_bracket table part

/-- Parentheses stand wherever they have to in initial values. -/
theorem bracketed_bindings (table : OperatorTable) : (bindings : List (String × Option Expr)) →
    ∀ binding ∈ bracketBindings bindings, ∀ p ∈ binding.2, p.Every (Bracketed table)
  | [] => nofun
  | (_, value) :: rest =>
    List.forall_mem_cons.2 ⟨bracketed_part table value, bracketed_bindings table rest⟩

end

end Kaleidoscope.Phrase
