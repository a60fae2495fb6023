import Kaleidoscope.Proofs.Parser.Locality
import Kaleidoscope.Proofs.Parser.Statements

/-!
# The parser as a composition of readers

A reader reads from the front of whatever tokens there are. Every function of the parser is put
together from smaller readers in the same few ways: one reader goes on where another one stopped, or
the next token tells how to go on. What such compositions have in common is shown once for each way,
not once for each function.
-/

namespace Kaleidoscope

namespace Reading

variable {α β : Type} {tokens rest : List Lexeme} {error : ParseError}

/-- The reading is rejected with an error, and some tokens are left. -/
def Rejects (reading : Reading tokens α) (error : ParseError) (rest : List Lexeme) : Prop :=
  ∃ suffix, reading = .rejected error rest suffix

/-- What is rejected is not accepted. -/
theorem Rejects.not_accepts {reading : Reading tokens α} (h : reading.Rejects error rest) (a : α)
    (rest' : List Lexeme) : ¬ reading.Accepts a rest' := by
  obtain ⟨_, rfl⟩ := h
  rintro ⟨_, h⟩
  cases h

/-- What is done is not rejected. -/
theorem rejects_done {value : α} : (done value tokens).Rejects error rest ↔ False := by
  constructor
  · rintro ⟨_, h⟩
    cases h
  · exact False.elim

/-- A failure is rejected with its own error, and leaves all tokens. -/
theorem rejects_fail {error' : ParseError} :
    (fail error' tokens : Reading tokens α).Rejects error rest ↔ error = error' ∧ rest = tokens := by
  constructor
  · rintro ⟨_, h⟩
    cases h
    exact ⟨rfl, rfl⟩
  · rintro ⟨rfl, rfl⟩
    exact ⟨_, rfl⟩

/-- A reading of the later tokens is rejected as it is by itself. -/
theorem rejects_within {left : List Lexeme} {suffix : left <:+ tokens} {reading : Reading left α} :
    (reading.within suffix).Rejects error rest ↔ reading.Rejects error rest := by
  cases reading with
  | accepted value rest' suffix' =>
    constructor
    · rintro ⟨_, h⟩
      cases h
    · rintro ⟨_, h⟩
      cases h
  | rejected error' rest' suffix' =>
    constructor
    · rintro ⟨_, h⟩
      cases h
      exact ⟨_, rfl⟩
    · rintro ⟨_, h⟩
      cases h
      exact ⟨_, rfl⟩

/-- A reading behind a token is rejected as it is by itself. -/
theorem rejects_past {first : Lexeme} {reading : Reading tokens α} :
    (past first reading).Rejects error rest ↔ reading.Rejects error rest :=
  rejects_within

/-- Two readings are rejected if the first one is, or the second one where the first one is
accepted. -/
theorem rejects_andThen {reading : Reading tokens α}
    {next : α → (rest : List Lexeme) → rest.length ≤ tokens.length → Reading rest β} :
    (reading.andThen next).Rejects error rest ↔ reading.Rejects error rest ∨
      ∃ a mid, ∃ h : reading.Accepts a mid, (next a mid h.length_le).Rejects error rest := by
  cases reading with
  | accepted value mid suffix =>
    change ((next value mid suffix.length_le).within suffix).Rejects error rest ↔ _
    rw [rejects_within]
    refine ⟨fun h => .inr ⟨value, mid, ⟨suffix, rfl⟩, h⟩, ?_⟩
    rintro (⟨_, h⟩ | ⟨a, mid', ⟨_, heq⟩, h⟩)
    · cases h
    · cases heq
      exact h
  | rejected error' rest' suffix =>
    refine ⟨fun ⟨_, h⟩ => ?_, ?_⟩
    · cases h
      exact .inl ⟨_, rfl⟩
    · rintro (⟨_, h⟩ | ⟨_, _, ⟨_, h⟩, -⟩)
      · cases h
        exact ⟨_, rfl⟩
      · cases h

/-- To change the value is to go on without taking a token. -/
theorem map_eq_andThen (f : α → β) (reading : Reading tokens α) :
    reading.map f = reading.andThen fun a rest _ => done (f a) rest := by
  cases reading with
  | accepted => rfl
  | rejected => rfl

/-- What stands in front does not matter for how reading goes on. -/
theorem within_andThen {left : List Lexeme} (suffix : left <:+ tokens) (reading : Reading left α)
    (next : α → (rest : List Lexeme) → Reading rest β) :
    (reading.within suffix).andThen (fun a rest _ => next a rest) =
      (reading.andThen fun a rest _ => next a rest).within suffix := by
  cases reading with
  | rejected => rfl
  | accepted a rest suffix' =>
    simp only [within, andThen]
    cases next a rest with
    | accepted => rfl
    | rejected => rfl

end Reading

/-- What reads from the front of any tokens. -/
abbrev Reader (α : Type) : Type := (tokens : List Lexeme) → Reading tokens α

namespace Reader

variable {α β : Type} {tokens rest : List Lexeme} {error : ParseError}

/-- Go on where a reader has stopped. -/
def andThen (f : Reader α) (g : α → Reader β) : Reader β :=
  fun tokens => (f tokens).andThen fun a rest _ => g a rest

/-- Take the next token and go on as it tells, if it tells how, and read `otherwise` if not. -/
def choose (told : Token → Option (Reader α)) (otherwise : Reader α) : Reader α
  | [] => otherwise []
  | first :: more =>
    match told first.token with
    | some f => .past first (f more)
    | none => otherwise (first :: more)

/-- One token alone tells how to go on. -/
def only (wanted : Token) (f : Reader α) (token : Token) : Option (Reader α) :=
  if token = wanted then some f else none

/-- Identifiers tell how to go on. -/
def named (f : String → Reader α) : Token → Option (Reader α)
  | .identifier name => some (f name)
  | _ => none

/-- Take a token that has to come. -/
def expect (wanted : Token) (construct : Construct) (f : Reader α) : Reader α :=
  choose (only wanted f) (Reading.unexpected construct)

/-- Take an identifier that has to come. -/
def expectName (construct : Construct) (f : String → Reader α) : Reader α :=
  choose (named f) (Reading.unexpected construct)

/-- Two readers accept if the second one does where the first one has stopped. -/
theorem accepts_andThen {f : Reader α} {g : α → Reader β} {b : β} :
    (f.andThen g tokens).Accepts b rest ↔
      ∃ a mid, (f tokens).Accepts a mid ∧ (g a mid).Accepts b rest := by
  rw [andThen, Reading.accepts_andThen]
  simp only [exists_prop]

/-- Two readers reject if the first one does, or the second one where the first one has stopped. -/
theorem rejects_andThen {f : Reader α} {g : α → Reader β} :
    (f.andThen g tokens).Rejects error rest ↔ (f tokens).Rejects error rest ∨
      ∃ a mid, (f tokens).Accepts a mid ∧ (g a mid).Rejects error rest := by
  rw [andThen, Reading.rejects_andThen]
  simp only [exists_prop]

/-- To go on without having taken a token is to begin. -/
theorem done_andThen (a : α) (g : α → Reader β) : andThen (Reading.done a) g = g a := by
  funext tokens
  rw [andThen, Reading.done, Reading.andThen]
  cases g a tokens with
  | accepted => rfl
  | rejected => rfl

/-- It does not matter which two of three readers are put together first. -/
theorem andThen_assoc {γ : Type} (f : Reader α) (g : α → Reader β) (h : β → Reader γ) :
    (f.andThen g).andThen h = f.andThen fun a => (g a).andThen h := by
  funext tokens
  simp only [andThen]
  cases f tokens with
  | rejected => rfl
  | accepted a rest suffix => exact Reading.within_andThen suffix (g a rest) h

/-- However reading goes on, the next token tells how to begin. -/
theorem choose_andThen (told : Token → Option (Reader α)) (otherwise : Reader α) (g : α → Reader β) :
    (choose told otherwise).andThen g =
      choose (fun token => (told token).map (andThen · g)) (otherwise.andThen g) := by
  funext tokens
  cases tokens with
  | nil => rfl
  | cons first more =>
    rw [andThen, choose, choose]
    cases told first.token with
    | none => rfl
    | some f => exact Reading.within_andThen _ (f more) g

section

variable {told : Token → Option (Reader α)} {otherwise f : Reader α}

/-- A token that tells how to go on is taken. -/
theorem choose_cons_of_some {first : Lexeme} (h : told first.token = some f) (more : List Lexeme) :
    choose told otherwise (first :: more) = .past first (f more) := by
  rw [choose, h]

/-- Where no token tells how to go on, the alternative is read. -/
theorem choose_of_none (h : ∀ first ∈ tokens.head?, told first.token = none) :
    choose told otherwise tokens = otherwise tokens := by
  cases tokens with
  | nil => rfl
  | cons first more => rw [choose, h first rfl]

/-- Only the wanted token tells how to go on. -/
theorem only_eq_some {wanted token : Token} {f' : Reader α} (h : only wanted f token = some f') :
    token = wanted ∧ f' = f := by
  unfold only at h
  split at h
  · cases h
    exact ⟨‹_›, rfl⟩
  · cases h

/-- Only an identifier tells how to go on. -/
theorem named_eq_some {f : String → Reader α} {token : Token} {f' : Reader α}
    (h : named f token = some f') : ∃ name, token = .identifier name ∧ f' = f name := by
  unfold named at h
  split at h
  · cases h
    exact ⟨_, rfl, rfl⟩
  · cases h

end

/-- To take a token if it comes next is to choose. -/
theorem ifNext_apply (wanted : Token) (f otherwise : Reader α) (tokens : List Lexeme) :
    ifNext wanted tokens (fun rest _ => f rest) (otherwise tokens) =
      choose (only wanted f) otherwise tokens := by
  cases tokens with
  | nil => rfl
  | cons first more =>
    rw [ifNext, choose, only]
    split
    · rfl
    · rfl

/-- A token that has to come, as the parser reads it. -/
theorem expect_apply (wanted : Token) (construct : Construct) (f : Reader α) (tokens : List Lexeme) :
    Kaleidoscope.expect wanted construct tokens (fun rest _ => f rest) =
      expect wanted construct f tokens := by
  rw [expect_eq_ifNext]
  exact ifNext_apply wanted f (Reading.unexpected construct) tokens

/-- An identifier that has to come, as the parser reads it. -/
theorem expectName_apply (construct : Construct) (f : String → Reader α) (tokens : List Lexeme) :
    Kaleidoscope.expectName construct tokens (fun name rest _ => f name rest) =
      expectName construct f tokens := by
  rcases tokens with _ | ⟨⟨token, span⟩, more⟩
  · rfl
  · cases token with
    | identifier name => rfl
    | _ => rfl

end Reader

namespace Parser

open Reading (done fail unexpected)
open Reader (andThen choose only)

variable (table : OperatorTable)

/-- An expression is an operand with the operators that follow it. -/
theorem expression_eq : expression table = andThen (unary table) (fold table 0) := by
  funext tokens
  rw [expression]
  rfl

/-- An operator that binds tightly enough is taken with its right operand. -/
def foldBehind (weakest : Nat) (left : Expr) : Token → Option (Reader Expr)
  | .symbol c =>
    match table.lookup c with
    | none => none
    | some precedence =>
      if precedence < weakest then none
      else some <| andThen (unary table) fun operand =>
        andThen (fold table (precedence + 1) operand) fun right =>
        fold table weakest (.binary c left right)
  | _ => none

/-- Operators are taken as long as they bind tightly enough. -/
theorem fold_eq (weakest : Nat) (left : Expr) :
    fold table weakest left = choose (foldBehind table weakest left) (done left) := by
  funext tokens
  rcases tokens with _ | ⟨⟨token, span⟩, more⟩
  · rw [fold.eq_def]
    rfl
  · cases token with
    | symbol c =>
      rw [fold, choose, foldBehind]
      cases table.lookup c with
      | none => rfl
      | some precedence =>
        simp only [tighter_eq_fold]
        split
        · rfl
        · rfl
    | _ =>
      rw [fold.eq_def]
      rfl

/-- A prefix operator is taken with its operand. -/
def unaryBehind (token : Token) : Option (Reader Expr) :=
  token.operator?.map fun operator =>
    andThen (unary table) fun operand => done (.unary operator operand)

/-- An operand may begin with prefix operators. -/
theorem unary_eq : unary table = choose (unaryBehind table) (primary table) := by
  funext tokens
  cases tokens with
  | nil =>
    rw [unary, choose, primary.eq_def]
  | cons first more =>
    rw [unary, choose, unaryBehind]
    cases first.token.operator? with
    | none => rfl
    | some operator => rfl

/-- The first token of what is no operator application tells which construct it is. -/
def primaryBehind : Token → Option (Reader Expr)
  | .number value => some (done (.number value))
  | .identifier name => some <|
    choose (only (.symbol '(') <| andThen (arguments table) fun values => done (.call name values))
      (done (.var name))
  | .symbol '(' => some <|
    andThen (expression table) fun inner =>
    Reader.expect (.symbol ')') .groupEnd (done inner)
  | .keyword .ifKeyword => some <|
    andThen (expression table) fun condition =>
    Reader.expect (.keyword .thenKeyword) .consequent <|
    andThen (expression table) fun consequent =>
    Reader.expect (.keyword .elseKeyword) .alternative <|
    andThen (expression table) fun alternative =>
    done (.conditional condition consequent alternative)
  | .keyword .forKeyword => some <|
    Reader.expectName .loopVariable fun name =>
    Reader.expect (.symbol '=') .loopStart <|
    andThen (expression table) fun start =>
    Reader.expect (.symbol ',') .loopFinish <|
    andThen (expression table) fun finish =>
    andThen (optional table ',') fun step =>
    Reader.expect (.keyword .inKeyword) .loopBody <|
    andThen (expression table) fun body =>
    done (.loop name start finish step body)
  | .keyword .varKeyword => some <|
    andThen (bindings table) fun bound =>
    Reader.expect (.keyword .inKeyword) .localBody <|
    andThen (expression table) fun body =>
    done (.locals bound body)
  | _ => none

/-- An expression that is no operator application goes by its first token. -/
theorem primary_eq : primary table = choose (primaryBehind table) (unexpected .expression) := by
  funext tokens
  rcases tokens with _ | ⟨⟨token, span⟩, more⟩
  · rw [primary.eq_def]
    rfl
  · cases token with
    | number value =>
      rw [primary]
      rfl
    | identifier name =>
      rw [primary_identifier]
      exact congrArg _ (Reader.ifNext_apply _ _ (done (Expr.var name)) more)
    | malformed =>
      rw [primary.eq_def]
      rfl
    | symbol c =>
      by_cases hc : c = '('
      · subst hc
        rw [primary]
        simp only [Reader.expect_apply]
        rfl
      · have hnone : primaryBehind table (.symbol c) = none := by
          unfold primaryBehind
          split
          all_goals simp_all
        rw [Reader.choose_of_none (by rintro _ ⟨⟩; exact hnone), primary]
        all_goals simp [hc]
    | keyword word =>
      cases word with
      | ifKeyword =>
        rw [primary]
        simp only [Reader.expect_apply]
        rfl
      | forKeyword =>
        rw [primary]
        simp only [Reader.expect_apply, Reader.expectName_apply]
        rfl
      | varKeyword =>
        rw [primary]
        simp only [Reader.expect_apply]
        rfl
      | _ =>
        rw [primary.eq_def]
        rfl

/-- There are no arguments, or some. -/
theorem arguments_eq :
    arguments table = choose (only (.symbol ')') (done [])) (operands table) := by
  funext tokens
  rw [arguments_eq_ifNext]
  exact Reader.ifNext_apply _ _ (operands table) tokens

/-- An argument is the last one, or a comma and others follow. -/
theorem operands_eq : operands table =
    andThen (expression table) fun operand =>
      choose (only (.symbol ')') (done [operand])) <|
      Reader.expect (.symbol ',') .argumentEnd <|
      andThen (operands table) fun later => done (operand :: later) := by
  funext tokens
  rw [operands]
  simp only [Reader.expect_apply, Reader.ifNext_apply, Reading.map_eq_andThen]
  rfl

/-- An optional part stands behind its mark. -/
theorem optional_eq (mark : Char) : optional table mark =
    choose (only (.symbol mark) (andThen (expression table) fun e => done (some e))) (done none) := by
  funext tokens
  rw [optional]
  simp only [Reading.map_eq_andThen]
  exact Reader.ifNext_apply _ _ (done none) tokens

/-- A local variable is the last one, or a comma and others follow. -/
theorem bindings_eq : bindings table =
    Reader.expectName .localVariable fun name =>
      andThen (optional table '=') fun value =>
      choose (only (.symbol ',') <|
          andThen (bindings table) fun later => done ((name, value) :: later))
        (done [(name, value)]) := by
  funext tokens
  rw [bindings]
  simp only [Reading.map_eq_andThen, Reader.ifNext_apply]
  exact Reader.expectName_apply _ _ tokens

/-- Names are read as long as identifiers come. -/
theorem names_eq :
    names = choose (Reader.named fun name => andThen names fun later => done (name :: later))
      (done []) := by
  funext tokens
  rcases tokens with _ | ⟨⟨token, span⟩, more⟩
  · rfl
  · cases token with
    | identifier name =>
      rw [names, Reading.map_eq_andThen]
      rfl
    | _ => rfl

/-- Parameters are names in parentheses. -/
theorem parameters_eq :
    parameters = Reader.expect (.symbol '(') .parameters (andThen names fun found =>
      Reader.expect (.symbol ')') .parametersEnd (done found)) := by
  funext tokens
  rw [parameters]
  simp only [Reader.expect_apply]
  rfl

/-- An operator has to have as many parameters as operands. -/
def withArity (arity : Nat) (p : Prototype) : Reader Prototype :=
  if p.parameters.length = arity then done p
  else fail (.operatorArity arity p.parameters.length)

/-- The symbol of a prefix operator is taken with its parameter. -/
def unaryPrototypeBehind (token : Token) : Option (Reader Prototype) :=
  token.operator?.map fun operator => andThen parameters fun found =>
    withArity 1 ⟨Prototype.unaryName operator, found, .unary⟩

/-- The signature of a prefix operator begins with its symbol. -/
theorem unaryPrototype_eq :
    unaryPrototype = choose unaryPrototypeBehind (unexpected .prefixOperator) := by
  funext tokens
  cases tokens with
  | nil => rfl
  | cons first more =>
    rw [unaryPrototype, choose, unaryPrototypeBehind]
    cases first.token.operator? with
    | none => rfl
    | some operator =>
      simp only [Option.map_some, andThen, withArity]
      congr
      funext found rest hle
      split <;> rfl

/-- The symbol of a binary operator is taken with its precedence and its parameters, unless it is
built in. -/
def binaryPrototypeBehind (token : Token) : Option (Reader Prototype) :=
  match token.operator? with
  | none => none
  | some operator =>
    if OperatorTable.isBuiltin operator then none
    else some <| andThen precedence fun n => andThen parameters fun found =>
      withArity 2 ⟨Prototype.binaryName operator, found, .binary n⟩

/-- The signature of a binary operator begins with its symbol. -/
theorem binaryPrototype_eq :
    binaryPrototype = choose binaryPrototypeBehind (unexpected .binaryOperator) := by
  funext tokens
  cases tokens with
  | nil => rfl
  | cons first more =>
    rw [binaryPrototype, choose, binaryPrototypeBehind]
    cases first.token.operator? with
    | none => rfl
    | some operator =>
      simp only
      split
      · rfl
      · simp only [andThen, withArity]
        congr
        funext n mid hmid
        congr
        funext found rest hle
        split <;> rfl

/-- The first token of a signature tells what it is the signature of. -/
def prototypeBehind : Token → Option (Reader Prototype)
  | .identifier name => some (andThen parameters fun found => done ⟨name, found, .plain⟩)
  | .keyword .unaryKeyword => some unaryPrototype
  | .keyword .binaryKeyword => some binaryPrototype
  | _ => none

/-- A signature goes by its first token. -/
theorem prototype_eq : prototype = choose prototypeBehind (unexpected .functionName) := by
  funext tokens
  rcases tokens with _ | ⟨⟨token, span⟩, more⟩
  · rfl
  · cases token with
    | keyword word => cases word <;> rfl
    | _ => rfl

/-- The words that open a definition or a declaration tell so. -/
def statementBehind : Token → Option (Reader Statement)
  | .keyword .defKeyword => some <| andThen prototype fun signature =>
    andThen (expression table) fun body => done (.definition ⟨signature, body⟩)
  | .keyword .externKeyword => some <| andThen prototype fun signature =>
    done (.declaration signature)
  | _ => none

/-- A statement that no word opens is an expression. -/
theorem statement_eq : statement table = choose (statementBehind table)
    (andThen (expression table) fun body => done (.evaluation body)) := by
  funext tokens
  rcases tokens with _ | ⟨⟨token, span⟩, more⟩
  · rw [statement, Reading.map_eq_andThen]
    · rfl
    all_goals simp
  · cases token with
    | keyword word =>
      cases word with
      | defKeyword => rfl
      | externKeyword =>
        rw [statement, Reading.map_eq_andThen]
        rfl
      | _ =>
        rw [statement, Reading.map_eq_andThen]
        · rfl
        all_goals simp
    | _ =>
      rw [statement, Reading.map_eq_andThen]
      · rfl
      all_goals simp

/-- A statement ends before a semicolon or at the end of the source. -/
def terminated (found : Statement) : Reader Statement
  | [] => done found []
  | first :: more =>
    if first.token.endsStatement then done found (first :: more)
    else unexpected .terminator (first :: more)

/-- The words that open a definition or a declaration tell so, and where it ends. -/
def wholeBehind : Token → Option (Reader Statement)
  | .keyword .defKeyword => some <| andThen prototype fun signature =>
    andThen (expression table) fun body => terminated (.definition ⟨signature, body⟩)
  | .keyword .externKeyword => some <| andThen prototype fun signature =>
    terminated (.declaration signature)
  | _ => none

/-- A statement with its end, if no word opens it, is an expression with an end. -/
theorem whole_eq : whole table = choose (wholeBehind table)
    (andThen (expression table) fun body => terminated (.evaluation body)) := by
  have hstatement : whole table = andThen (statement table) terminated := by
    funext tokens
    rw [whole, andThen]
    congr
    funext found rest hle
    cases rest with
    | nil => rfl
    | cons => rfl
  have hbehind : (fun token => (statementBehind table token).map (andThen · terminated)) =
      wholeBehind table := by
    funext token
    unfold statementBehind wholeBehind
    split
    all_goals simp only [Option.map_some, Option.map_none, Reader.andThen_assoc, Reader.done_andThen]
  rw [hstatement, statement_eq, Reader.choose_andThen, hbehind, Reader.andThen_assoc]
  simp only [Reader.done_andThen]

variable {table : OperatorTable} {size : Nat} {tokens : List Lexeme}

/-- The next statement has been accepted from its first token on. -/
theorem accepts_of_next? {progress : Progress tokens} (h : next? table size tokens = some progress)
    {found : Located Statement} (hfound : progress.statement = .ok found) :
    fromNext tokens ≠ [] ∧ ∃ rest, (whole table (fromNext tokens)).Accepts found.value rest ∧
      found.span = spanUpTo (fromNext tokens) rest ∧ progress.rest = rest.drop 1 := by
  rw [next?] at h
  split at h
  · cases h
  · rename_i hne
    split at h
    · rename_i value rest suffix hwhole
      cases h
      cases hfound
      exact ⟨hne, rest, ⟨suffix, hwhole⟩, rfl, rfl⟩
    · cases h
      cases hfound

/-- Or it has been rejected from its first token on. -/
theorem rejects_of_next? {progress : Progress tokens} (h : next? table size tokens = some progress)
    {error : Located ParseError} (herror : progress.statement = .error error) :
    fromNext tokens ≠ [] ∧ ∃ rest, (whole table (fromNext tokens)).Rejects error.value rest ∧
      error.span = nextSpan size rest := by
  rw [next?] at h
  split at h
  · cases h
  · rename_i hne
    split at h
    · cases h
      cases herror
    · rename_i value rest suffix hwhole
      cases h
      cases herror
      exact ⟨hne, rest, ⟨suffix, hwhole⟩, rfl⟩

/-- A statement that is read, as far as its place and the number of tokens behind it tell. -/
theorem exists_read {span : Span} {left : Nat}
    (h : (next? table size tokens).map
      (fun progress => (progress.statement.toOption.map Located.span, progress.rest.length)) =
        some (some span, left)) :
    ∃ (progress : Progress tokens) (found : Located Statement),
      next? table size tokens = some progress ∧ progress.statement = .ok found ∧
      found.span = span ∧ progress.rest.length = left := by
  obtain ⟨progress, hnext, hprogress⟩ := Option.map_eq_some_iff.1 h
  obtain ⟨hspan, hrest⟩ := Prod.mk.inj hprogress
  obtain ⟨found, hfound, hspan⟩ := Option.map_eq_some_iff.1 hspan
  refine ⟨progress, found, hnext, ?_, hspan, hrest⟩
  cases hstatement : progress.statement with
  | error e =>
    rw [hstatement] at hfound
    cases hfound
  | ok found' =>
    rw [hstatement] at hfound
    cases hfound
    rfl

/-- A statement that is rejected, as far as it is not read. -/
theorem exists_rejected
    (h : (next? table size tokens).map (·.statement.toOption.isSome) = some false) :
    ∃ (progress : Progress tokens) (error : Located ParseError),
      next? table size tokens = some progress ∧ progress.statement = .error error := by
  obtain ⟨progress, hnext, hprogress⟩ := Option.map_eq_some_iff.1 h
  cases hstatement : progress.statement with
  | error error => exact ⟨progress, error, hnext, hstatement⟩
  | ok found =>
    rw [hstatement] at hprogress
    cases hprogress

end Parser

end Kaleidoscope
