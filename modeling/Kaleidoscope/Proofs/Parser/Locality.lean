import Kaleidoscope.Parser.Statement
import Kaleidoscope.Proofs.Parser.Steps

/-!
# Reading stays within a statement

What is read depends on the tokens of one statement only: on nothing behind the first token that
separates statements, and not on where in the source the tokens stand. Two lists that are alike up
to such a token are read alike, whether this ends with a tree or with an error, and no separating
token is ever taken.
-/

namespace Kaleidoscope

/-- Does the token separate statements? A semicolon ends one, and two words begin one. -/
def Token.separates (t : Token) : Bool := t.endsStatement || t.opensDefinition

/-- There are three such tokens. -/
theorem Token.eq_of_separates {t : Token} (h : t.separates) :
    t = .symbol ';' ∨ t = .keyword .defKeyword ∨ t = .keyword .externKeyword := by
  simpa [separates, endsStatement, opensDefinition] using h

/-- The lists hold the same tokens, at least up to the first one that separates statements. -/
inductive Alike : List Lexeme → List Lexeme → Prop where
  | nil : Alike [] []
  | separator {token : Token} {s s' : Span} {more more' : List Lexeme} : token.separates →
      Alike (⟨token, s⟩ :: more) (⟨token, s'⟩ :: more')
  | cons {token : Token} {s s' : Span} {more more' : List Lexeme} : Alike more more' →
      Alike (⟨token, s⟩ :: more) (⟨token, s'⟩ :: more')

/-- Lists that are alike begin alike. -/
theorem Alike.head?_eq {tokens tokens' : List Lexeme} (h : Alike tokens tokens') :
    tokens.head?.map Lexeme.token = tokens'.head?.map Lexeme.token := by
  cases h with
  | nil => rfl
  | separator => rfl
  | cons => rfl

/-- The same number of tokens has been taken from either list, none of which separates statements,
and what is left is alike. -/
inductive Alongside : List Lexeme → List Lexeme → List Lexeme → List Lexeme → Prop where
  | here {tokens tokens' : List Lexeme} : Alike tokens tokens' →
      Alongside tokens tokens' tokens tokens'
  | past {token : Token} {s s' : Span} {more more' rest rest' : List Lexeme} :
      token.separates = false → Alongside more more' rest rest' →
      Alongside (⟨token, s⟩ :: more) (⟨token, s'⟩ :: more') rest rest'

/-- What is left is alike. -/
theorem Alongside.alike {tokens tokens' rest rest' : List Lexeme}
    (h : Alongside tokens tokens' rest rest') : Alike rest rest' := by
  induction h with
  | here h => exact h
  | past _ _ ih => exact ih

/-- Tokens can be taken from what is left. -/
theorem Alongside.trans {tokens tokens' mid mid' rest rest' : List Lexeme}
    (h : Alongside tokens tokens' mid mid') (hnext : Alongside mid mid' rest rest') :
    Alongside tokens tokens' rest rest' := by
  induction h with
  | here => exact hnext
  | past hsep _ ih => exact .past hsep (ih hnext)

namespace Reading

variable {α β : Type} {tokens tokens' : List Lexeme}

/-- Two readings come to the same value or to the same error, and stop at the same token, seen from
where they started. -/
inductive CoincidesFrom (start start' : List Lexeme) : Reading tokens α → Reading tokens' α → Prop where
  | accepted {value : α} {rest rest' : List Lexeme} {suffix : rest <:+ tokens}
      {suffix' : rest' <:+ tokens'} : Alongside start start' rest rest' →
      CoincidesFrom start start' (.accepted value rest suffix) (.accepted value rest' suffix')
  | rejected {error : ParseError} {rest rest' : List Lexeme} {suffix : rest <:+ tokens}
      {suffix' : rest' <:+ tokens'} : Alongside start start' rest rest' →
      CoincidesFrom start start' (.rejected error rest suffix) (.rejected error rest' suffix')

/-- Two readings come to the same value or to the same error, and stop at the same token. -/
abbrev Coincides (reading : Reading tokens α) (reading' : Reading tokens' α) : Prop :=
  CoincidesFrom tokens tokens' reading reading'

/-- Readings that take nothing and have the same value coincide. -/
theorem coincides_done (value : α) (h : Alike tokens tokens') :
    Coincides (done value tokens) (done value tokens') :=
  .accepted (.here h)

/-- Readings that fail with the same error coincide. -/
theorem coincides_fail (error : ParseError) (h : Alike tokens tokens') :
    Coincides (fail error tokens : Reading tokens α) (fail error tokens') :=
  .rejected (.here h)

/-- Where the tokens are alike, the same token is unexpected. -/
theorem coincides_unexpected (expected : Construct) (h : Alike tokens tokens') :
    Coincides (unexpected expected tokens : Reading tokens α) (unexpected expected tokens') := by
  rw [unexpected, unexpected, h.head?_eq]
  exact coincides_fail _ h

/-- Two readings stop alike, and these are the tokens that they leave. -/
def StopAt (reading : Reading tokens α) (reading' : Reading tokens' α) (rest rest' : List Lexeme) :
    Prop :=
  (∃ value suffix suffix', reading = .accepted value rest suffix ∧
    reading' = .accepted value rest' suffix') ∨
  ∃ error suffix suffix', reading = .rejected error rest suffix ∧
    reading' = .rejected error rest' suffix'

/-- Readings that coincide stop alike, and have taken the same tokens. -/
theorem CoincidesFrom.stopAt {start start' : List Lexeme} {reading : Reading tokens α}
    {reading' : Reading tokens' α} (h : CoincidesFrom start start' reading reading') :
    ∃ rest rest', Alongside start start' rest rest' ∧ StopAt reading reading' rest rest' := by
  cases h with
  | accepted h => exact ⟨_, _, h, .inl ⟨_, _, _, rfl, rfl⟩⟩
  | rejected h => exact ⟨_, _, h, .inr ⟨_, _, _, rfl, rfl⟩⟩

/-- It does not matter which token comes first. -/
theorem CoincidesFrom.behind {start start' : List Lexeme} {first first' : Lexeme}
    {reading : Reading tokens α} {reading' : Reading tokens' α}
    (h : CoincidesFrom start start' reading reading') :
    CoincidesFrom start start' (past first reading) (past first' reading') := by
  cases h with
  | accepted h => exact .accepted h
  | rejected h => exact .rejected h

/-- A token that separates nothing may be put in front of readings that coincide. -/
theorem CoincidesFrom.past {token : Token} {s s' : Span} {reading : Reading tokens α}
    {reading' : Reading tokens' α} (h : Coincides reading reading') (hsep : token.separates = false) :
    Coincides (past ⟨token, s⟩ reading) (past ⟨token, s'⟩ reading') := by
  cases h with
  | accepted h => exact .accepted (.past hsep h)
  | rejected h => exact .rejected (.past hsep h)

/-- A function may be applied to the values of readings that coincide. -/
theorem CoincidesFrom.map {start start' : List Lexeme} {reading : Reading tokens α}
    {reading' : Reading tokens' α} (h : CoincidesFrom start start' reading reading') (f : α → β) :
    CoincidesFrom start start' (reading.map f) (reading'.map f) := by
  cases h with
  | accepted h => exact .accepted h
  | rejected h => exact .rejected h

/-- Readings coincide if their first parts do, and their later parts wherever the first ones stop
alike. -/
theorem CoincidesFrom.andThen {start start' : List Lexeme} {reading : Reading tokens α}
    {reading' : Reading tokens' α}
    {next : α → (rest : List Lexeme) → rest.length ≤ tokens.length → Reading rest β}
    {next' : α → (rest : List Lexeme) → rest.length ≤ tokens'.length → Reading rest β}
    (h : CoincidesFrom start start' reading reading')
    (hnext : ∀ value rest rest' hle hle', Alike rest rest' →
      Coincides (next value rest hle) (next' value rest' hle')) :
    CoincidesFrom start start' (reading.andThen next) (reading'.andThen next') := by
  cases h with
  | rejected h => exact .rejected h
  | @accepted value rest rest' suffix suffix' h =>
    have hbehind := hnext value rest rest' suffix.length_le suffix'.length_le h.alike
    change CoincidesFrom start start' ((next value rest suffix.length_le).within suffix)
      ((next' value rest' suffix'.length_le).within suffix')
    generalize next value rest suffix.length_le = reading at hbehind ⊢
    generalize next' value rest' suffix'.length_le = reading' at hbehind ⊢
    cases hbehind with
    | accepted h' => exact .accepted (h.trans h')
    | rejected h' => exact .rejected (h.trans h')

end Reading

open Reading

section Tokens

variable {α : Type} {tokens tokens' : List Lexeme}

/-- What is read behind a token if it comes next coincides where both alternatives do. -/
theorem coincides_ifNext {wanted : Token} (hwanted : wanted.separates = false)
    {next : (rest : List Lexeme) → rest.length < tokens.length → Reading rest α}
    {next' : (rest : List Lexeme) → rest.length < tokens'.length → Reading rest α}
    {otherwise : Reading tokens α} {otherwise' : Reading tokens' α} (h : Alike tokens tokens')
    (hnext : ∀ rest rest' hlt hlt', Alike rest rest' → Coincides (next rest hlt) (next' rest' hlt'))
    (hotherwise : Coincides otherwise otherwise') :
    Coincides (ifNext wanted tokens next otherwise) (ifNext wanted tokens' next' otherwise') := by
  cases h with
  | nil => exact hotherwise
  | @separator token _ _ more more' hsep =>
    have hne : token ≠ wanted := by
      rintro rfl
      rw [hsep] at hwanted
      cases hwanted
    simpa only [ifNext, if_neg hne] using hotherwise
  | @cons token _ _ more more' hmore =>
    simp only [ifNext]
    by_cases heq : token = wanted
    · simp only [if_pos heq]
      exact (hnext more more' _ _ hmore).past (heq ▸ hwanted)
    · simpa only [if_neg heq] using hotherwise

/-- To expect a token is to fail if another one is next. -/
theorem expect_eq_ifNext (wanted : Token) (construct : Construct)
    (next : (rest : List Lexeme) → rest.length < tokens.length → Reading rest α) :
    expect wanted construct tokens next =
      ifNext wanted tokens next (unexpected construct tokens) := by
  cases tokens with
  | nil => rfl
  | cons => rfl

/-- What is read behind a token that has to come coincides where the later part does. -/
theorem coincides_expect {wanted : Token} (hwanted : wanted.separates = false) (construct : Construct)
    {next : (rest : List Lexeme) → rest.length < tokens.length → Reading rest α}
    {next' : (rest : List Lexeme) → rest.length < tokens'.length → Reading rest α}
    (h : Alike tokens tokens')
    (hnext : ∀ rest rest' hlt hlt', Alike rest rest' → Coincides (next rest hlt) (next' rest' hlt')) :
    Coincides (expect wanted construct tokens next) (expect wanted construct tokens' next') := by
  rw [expect_eq_ifNext, expect_eq_ifNext]
  exact coincides_ifNext hwanted h hnext (coincides_unexpected construct h)

/-- What is read behind an identifier that has to come coincides where the later part does. -/
theorem coincides_expectName (construct : Construct)
    {next : String → (rest : List Lexeme) → rest.length < tokens.length → Reading rest α}
    {next' : String → (rest : List Lexeme) → rest.length < tokens'.length → Reading rest α}
    (h : Alike tokens tokens')
    (hnext : ∀ name rest rest' hlt hlt', Alike rest rest' →
      Coincides (next name rest hlt) (next' name rest' hlt')) :
    Coincides (expectName construct tokens next) (expectName construct tokens' next') := by
  cases h with
  | nil => exact coincides_unexpected construct .nil
  | @separator token _ _ more more' hsep =>
    cases token with
    | identifier name => cases hsep
    | _ => exact coincides_unexpected construct (.separator hsep)
  | @cons token _ _ more more' hmore =>
    cases token with
    | identifier name => exact (hnext name more more' _ _ hmore).past rfl
    | _ => exact coincides_unexpected construct (.cons hmore)

end Tokens

namespace Parser

variable {table : OperatorTable} {tokens tokens' : List Lexeme} {n : Nat}

/-- Lists that are alike give the same expression, as long as the first one is shorter than `n`. -/
def CoincidesBelow (table : OperatorTable) (n : Nat) : Prop :=
  ∀ {tokens tokens' : List Lexeme}, tokens.length < n → Alike tokens tokens' →
    Coincides (expression table tokens) (expression table tokens')

/-- Optional parts coincide. -/
theorem coincides_optional (h : CoincidesBelow table n) {mark : Char}
    (hmark : (Token.symbol mark).separates = false) (hlength : tokens.length ≤ n)
    (halike : Alike tokens tokens') :
    Coincides (optional table mark tokens) (optional table mark tokens') := by
  rw [optional, optional]
  exact coincides_ifNext hmark halike
    (fun rest rest' hlt _ hrest => (h (Nat.lt_of_lt_of_le hlt hlength) hrest).map some)
    (coincides_done none halike)

/-- Local variables coincide. -/
theorem coincides_bindings (h : CoincidesBelow table n) (hlength : tokens.length ≤ n)
    (halike : Alike tokens tokens') :
    Coincides (bindings table tokens) (bindings table tokens') := by
  induction hsize : tokens.length using Nat.strongRecOn generalizing tokens tokens' with
  | ind size ih =>
    rw [bindings, bindings]
    refine coincides_expectName _ halike fun name rest rest' hlt _ hrest => ?_
    refine (coincides_optional h rfl (by omega) hrest).andThen fun value mid mid' hle _ hmid => ?_
    refine coincides_ifNext rfl hmid (fun later later' hlt' _ hlater => ?_) (coincides_done _ hmid)
    exact (ih later.length (by omega) (by omega) hlater rfl).map _

/-- Arguments in a list are read alike, given that shorter lists of them are. -/
theorem coincides_operands (h : CoincidesBelow table n) (hlength : tokens.length < n)
    (halike : Alike tokens tokens') :
    Coincides (operands table tokens) (operands table tokens') := by
  induction hsize : tokens.length using Nat.strongRecOn generalizing tokens tokens' with
  | ind size ih =>
    rw [operands, operands]
    refine (h hlength halike).andThen fun operand rest rest' hle _ hrest => ?_
    refine coincides_ifNext rfl hrest (fun mid mid' _ _ hmid => coincides_done _ hmid) ?_
    refine coincides_expect rfl _ hrest fun mid mid' hlt _ hmid => ?_
    exact (ih mid.length (by omega) (by omega) hmid rfl).map _

/-- Arguments are none if the parenthesis is closed at once. -/
theorem arguments_eq_ifNext (tokens : List Lexeme) : arguments table tokens =
    ifNext (.symbol ')') tokens (fun rest _ => done [] rest) (operands table tokens) := by
  rw [arguments.eq_def]
  split
  · rw [ifNext, if_pos rfl]
  · rename_i hopen
    cases tokens with
    | nil => rfl
    | cons first more =>
      obtain ⟨token, span⟩ := first
      rw [ifNext, if_neg]
      rintro rfl
      exact hopen span more rfl

/-- Arguments coincide. -/
theorem coincides_arguments (h : CoincidesBelow table n) (hlength : tokens.length < n)
    (halike : Alike tokens tokens') :
    Coincides (arguments table tokens) (arguments table tokens') := by
  rw [arguments_eq_ifNext, arguments_eq_ifNext]
  exact coincides_ifNext rfl halike (fun rest rest' _ _ hrest => coincides_done [] hrest)
    (coincides_operands h hlength halike)

/-- A name is called if a parenthesis is opened behind it, and is a variable otherwise. -/
theorem primary_identifier (name : String) (span : Span) (tokens : List Lexeme) :
    primary table (⟨.identifier name, span⟩ :: tokens) =
      past ⟨.identifier name, span⟩ (ifNext (.symbol '(') tokens
        (fun rest _ => (arguments table rest).andThen fun operands rest _ =>
          done (.call name operands) rest)
        (done (.var name) tokens)) := by
  have hvar (hopen : ∀ span' more, tokens = ⟨.symbol '(', span'⟩ :: more → False) :
      primary table (⟨.identifier name, span⟩ :: tokens) =
        past ⟨.identifier name, span⟩ (done (.var name) tokens) := by
    rw [primary]
    exact hopen
  cases tokens with
  | nil => exact hvar fun _ _ h => List.cons_ne_nil _ _ h.symm
  | cons first more =>
    obtain ⟨token, span'⟩ := first
    by_cases heq : token = .symbol '('
    · subst heq
      rw [primary, ifNext, if_pos rfl]
    · rw [ifNext, if_neg heq]
      refine hvar fun span'' more' h => ?_
      cases h
      exact heq rfl

/-- Expressions that are no operator applications coincide. -/
theorem coincides_primary (h : CoincidesBelow table n) (hlength : tokens.length ≤ n)
    (halike : Alike tokens tokens') :
    Coincides (primary table tokens) (primary table tokens') := by
  have hunexpected := @coincides_unexpected Expr _ _ .expression halike
  cases halike with
  | nil =>
    simp only [primary]
    exact hunexpected
  | @separator token _ _ more more' hsep =>
    rcases Token.eq_of_separates hsep with rfl | rfl | rfl
    · rw [primary, primary]
      · exact hunexpected
      all_goals simp
    · simp only [primary]
      exact hunexpected
    · simp only [primary]
      exact hunexpected
  | @cons token s s' more more' hmore =>
    have hlt : more.length < n := hlength
    cases token with
    | number value =>
      rw [primary, primary]
      exact (coincides_done _ hmore).past rfl
    | identifier name =>
      rw [primary_identifier, primary_identifier]
      refine (coincides_ifNext rfl hmore (fun rest rest' hrest _ halike => ?_)
        (coincides_done _ hmore)).past rfl
      exact (coincides_arguments h (by omega) halike).andThen fun _ _ _ _ _ h => coincides_done _ h
    | malformed =>
      simp only [primary]
      exact hunexpected
    | symbol c =>
      by_cases hc : c = '('
      · subst hc
        rw [primary, primary]
        refine ((h hlt hmore).andThen fun inner rest rest' _ _ hrest => ?_).past rfl
        exact coincides_expect rfl _ hrest fun _ _ _ _ h => coincides_done _ h
      · rw [primary, primary]
        · exact hunexpected
        all_goals simp [hc]
    | keyword word =>
      cases word with
      | ifKeyword =>
        rw [primary, primary]
        refine ((h hlt hmore).andThen fun condition rest rest' hle _ hrest => ?_).past rfl
        refine coincides_expect rfl _ hrest fun rest rest' hlt _ hrest => ?_
        refine (h (by omega) hrest).andThen fun consequent rest rest' hle _ hrest => ?_
        refine coincides_expect rfl _ hrest fun rest rest' hlt _ hrest => ?_
        exact (h (by omega) hrest).andThen fun _ _ _ _ _ hrest => coincides_done _ hrest
      | forKeyword =>
        rw [primary, primary]
        refine (coincides_expectName _ hmore fun name rest rest' hlt _ hrest => ?_).past rfl
        refine coincides_expect rfl _ hrest fun rest rest' hlt _ hrest => ?_
        refine (h (by omega) hrest).andThen fun start rest rest' hle _ hrest => ?_
        refine coincides_expect rfl _ hrest fun rest rest' hlt _ hrest => ?_
        refine (h (by omega) hrest).andThen fun finish rest rest' hle _ hrest => ?_
        refine (coincides_optional h rfl (by omega) hrest).andThen fun step rest rest' hle _ hrest => ?_
        refine coincides_expect rfl _ hrest fun rest rest' hlt _ hrest => ?_
        exact (h (by omega) hrest).andThen fun _ _ _ _ _ hrest => coincides_done _ hrest
      | varKeyword =>
        rw [primary, primary]
        refine ((coincides_bindings h (by omega) hmore).andThen
          fun bound rest rest' hle _ hrest => ?_).past rfl
        refine coincides_expect rfl _ hrest fun rest rest' hlt _ hrest => ?_
        exact (h (by omega) hrest).andThen fun _ _ _ _ _ hrest => coincides_done _ hrest
      | _ =>
        simp only [primary]
        exact hunexpected

/-- A token that separates statements names no operator. -/
theorem operator?_of_separates {t : Token} (h : t.separates) : t.operator? = none := by
  rcases Token.eq_of_separates h with rfl | rfl | rfl
  · decide
  · rfl
  · rfl

/-- A token that names an operator separates no statements. -/
theorem separates_of_operator? {t : Token} {operator : Char} (h : t.operator? = some operator) :
    t.separates = false := by
  cases hsep : t.separates with
  | false => rfl
  | true =>
    rw [operator?_of_separates hsep] at h
    cases h

/-- Operands coincide. -/
theorem coincides_unary (h : CoincidesBelow table n) (hlength : tokens.length ≤ n)
    (halike : Alike tokens tokens') :
    Coincides (unary table tokens) (unary table tokens') := by
  induction hsize : tokens.length using Nat.strongRecOn generalizing tokens tokens' with
  | ind size ih =>
    have hprimary := coincides_primary h hlength halike
    cases halike with
    | nil =>
      simp only [unary]
      exact coincides_unexpected _ .nil
    | @separator token _ _ more more' hsep =>
      rw [unary, unary]
      simp only [operator?_of_separates hsep]
      exact hprimary
    | @cons token _ _ more more' hmore =>
      rw [unary, unary]
      cases hoperator : token.operator? with
      | none => exact hprimary
      | some operator =>
        have hlt : more.length < size := hsize ▸ Nat.lt_succ_self _
        refine ((ih more.length hlt (by omega) hmore rfl).andThen
          fun operand rest rest' _ _ hrest => ?_).past (separates_of_operator? hoperator)
        exact coincides_done _ hrest

/-- Nothing is folded unless an operator of the table comes next. -/
theorem fold_eq_done {weakest : Nat} {left : Expr}
    (h : ¬ ∃ c precedence more, Takes (.symbol c) tokens more ∧
      table.lookup c = some precedence) :
    fold table weakest left tokens = done left tokens := by
  rw [fold.eq_def]
  split
  · rename_i c span more
    split
    · rfl
    · rename_i precedence hlookup
      exact (h ⟨c, precedence, more, ⟨span, rfl⟩, hlookup⟩).elim
  · rfl

/-- Folding operators with their right operands coincides. -/
theorem coincides_fold (h : CoincidesBelow table n) (hsemicolon : table.lookup ';' = none)
    {weakest : Nat} {left : Expr} (hlength : tokens.length ≤ n) (halike : Alike tokens tokens') :
    Coincides (fold table weakest left tokens) (fold table weakest left tokens') := by
  induction hsize : tokens.length using Nat.strongRecOn
    generalizing tokens tokens' weakest left with
  | ind size ih =>
    by_cases hnext : ∃ c precedence more, Takes (.symbol c) tokens more ∧
        table.lookup c = some precedence
    · obtain ⟨c, precedence, more, ⟨span, rfl⟩, hlookup⟩ := hnext
      have hne : c ≠ ';' := by
        rintro rfl
        rw [hsemicolon] at hlookup
        cases hlookup
      have hsep : (Token.symbol c).separates = false := by
        simp [Token.separates, Token.endsStatement, Token.opensDefinition, hne]
      cases halike with
      | separator htrue =>
        rw [hsep] at htrue
        cases htrue
      | @cons _ _ s' _ more' hmore =>
        have hlt : more.length < size := hsize ▸ Nat.lt_succ_self _
        rw [fold, fold, hlookup]
        simp only
        by_cases hloose : precedence < weakest
        · simp only [if_pos hloose]
          exact coincides_done left (.cons hmore)
        · simp only [if_neg hloose]
          refine ((coincides_unary h (by omega) hmore).andThen
            fun operand mid mid' hmid _ hmidAlike => ?_).past hsep
          rw [tighter_eq_fold, tighter_eq_fold]
          refine (ih mid.length (by omega) (by omega) hmidAlike rfl).andThen
            fun right rest rest' hrest _ hrestAlike => ?_
          exact ih rest.length (by omega) (by omega) hrestAlike rfl
    · have hnext' : ¬ ∃ c precedence more, Takes (.symbol c) tokens' more ∧
          table.lookup c = some precedence := by
        rintro ⟨c, precedence, more, ⟨span, rfl⟩, hlookup⟩
        cases halike with
        | separator hsep => exact hnext ⟨c, precedence, _, ⟨_, rfl⟩, hlookup⟩
        | cons hmore => exact hnext ⟨c, precedence, _, ⟨_, rfl⟩, hlookup⟩
      rw [fold_eq_done hnext, fold_eq_done hnext']
      exact coincides_done left halike

/-- Expressions are read alike, however long the lists are. -/
theorem coincidesBelow (hsemicolon : table.lookup ';' = none) (n : Nat) : CoincidesBelow table n := by
  induction n with
  | zero => exact fun hlength => (Nat.not_lt_zero _ hlength).elim
  | succ n ih =>
    intro tokens tokens' hlength halike
    have hle := Nat.le_of_lt_succ hlength
    rw [expression, expression]
    refine (coincides_unary ih hle halike).andThen fun left rest rest' hrest _ hrestAlike => ?_
    exact coincides_fold ih hsemicolon (Nat.le_trans hrest hle) hrestAlike

/-- Expressions are read alike where the semicolon is no operator. -/
theorem coincides_expression (hsemicolon : table.lookup ';' = none) (halike : Alike tokens tokens') :
    Coincides (expression table tokens) (expression table tokens') :=
  coincidesBelow hsemicolon _ (Nat.lt_succ_self _) halike

/-- The names of parameters coincide. -/
theorem coincides_names (halike : Alike tokens tokens') : Coincides (names tokens) (names tokens') := by
  induction halike with
  | nil =>
    simp only [names]
    exact coincides_done [] .nil
  | @separator token _ _ _ _ hsep =>
    cases token with
    | identifier name => cases hsep
    | _ =>
      simp only [names]
      exact coincides_done [] (.separator hsep)
  | @cons token _ _ _ _ hmore ih =>
    cases token with
    | identifier name =>
      rw [names, names]
      exact (ih.map _).past rfl
    | _ =>
      simp only [names]
      exact coincides_done [] (.cons hmore)

/-- Parameters in their parentheses coincide. -/
theorem coincides_parameters (halike : Alike tokens tokens') :
    Coincides (parameters tokens) (parameters tokens') := by
  refine coincides_expect rfl _ halike fun rest rest' _ _ hrest => ?_
  refine (coincides_names hrest).andThen fun found mid mid' _ _ hmid => ?_
  exact coincides_expect rfl _ hmid fun _ _ _ _ h => coincides_done found h

/-- Stated precedences coincide. -/
theorem coincides_precedence (halike : Alike tokens tokens') :
    Coincides (precedence tokens) (precedence tokens') := by
  have hstandard := coincides_done OperatorTable.standard halike
  cases halike with
  | nil => exact hstandard
  | @separator token _ _ _ _ hsep =>
    cases token with
    | number value => cases hsep
    | _ => exact hstandard
  | @cons token _ _ _ _ hmore =>
    cases token with
    | number value =>
      rw [precedence, precedence]
      cases precedence? value with
      | none => exact coincides_fail _ (.cons hmore)
      | some n => exact (coincides_done n hmore).past rfl
    | _ => exact hstandard

/-- The signatures of prefix operators coincide. -/
theorem coincides_unaryPrototype (halike : Alike tokens tokens') :
    Coincides (unaryPrototype tokens) (unaryPrototype tokens') := by
  have hunexpected := @coincides_unexpected Prototype _ _ .prefixOperator halike
  cases halike with
  | nil => exact hunexpected
  | @separator token _ _ _ _ hsep =>
    simpa only [unaryPrototype, operator?_of_separates hsep] using hunexpected
  | @cons token _ _ _ _ hmore =>
    rw [unaryPrototype, unaryPrototype]
    cases hoperator : token.operator? with
    | none => exact hunexpected
    | some operator =>
      refine ((coincides_parameters hmore).andThen fun found rest rest' _ _ hrest => ?_).past
        (separates_of_operator? hoperator)
      split
      · exact coincides_done _ hrest
      · exact coincides_fail _ hrest

/-- The signatures of binary operators coincide. -/
theorem coincides_binaryPrototype (halike : Alike tokens tokens') :
    Coincides (binaryPrototype tokens) (binaryPrototype tokens') := by
  have hunexpected := @coincides_unexpected Prototype _ _ .binaryOperator halike
  cases halike with
  | nil => exact hunexpected
  | @separator token _ _ _ _ hsep =>
    simpa only [binaryPrototype, operator?_of_separates hsep] using hunexpected
  | @cons token _ _ _ _ hmore =>
    rw [binaryPrototype, binaryPrototype]
    cases hoperator : token.operator? with
    | none => exact hunexpected
    | some operator =>
      simp only
      split
      · exact hunexpected
      · refine ((coincides_precedence hmore).andThen fun n mid mid' _ _ hmid => ?_).past
          (separates_of_operator? hoperator)
        refine (coincides_parameters hmid).andThen fun found rest rest' _ _ hrest => ?_
        split
        · exact coincides_done _ hrest
        · exact coincides_fail _ hrest

/-- Signatures coincide. -/
theorem coincides_prototype (halike : Alike tokens tokens') :
    Coincides (prototype tokens) (prototype tokens') := by
  have hunexpected := @coincides_unexpected Prototype _ _ .functionName halike
  cases halike with
  | nil => exact hunexpected
  | separator hsep =>
    rcases Token.eq_of_separates hsep with rfl | rfl | rfl
    · exact hunexpected
    · exact hunexpected
    · exact hunexpected
  | @cons token _ _ _ _ hmore =>
    cases token with
    | identifier name =>
      rw [prototype, prototype]
      exact ((coincides_parameters hmore).andThen fun found _ _ _ _ h =>
        coincides_done (⟨name, found, .plain⟩ : Prototype) h).past rfl
    | keyword word =>
      cases word with
      | unaryKeyword => exact (coincides_unaryPrototype hmore).past rfl
      | binaryKeyword => exact (coincides_binaryPrototype hmore).past rfl
      | _ => exact hunexpected
    | _ => exact hunexpected

/-- Definitions and declarations coincide behind their first token, which no other statement has. -/
theorem coincides_statement (hsemicolon : table.lookup ';' = none) {token : Token} {s s' : Span}
    {more more' : List Lexeme} (hmore : Alike more more') :
    Coincides (statement table (⟨token, s⟩ :: more)) (statement table (⟨token, s'⟩ :: more')) ∨
    CoincidesFrom more more' (statement table (⟨token, s⟩ :: more))
      (statement table (⟨token, s'⟩ :: more')) := by
  by_cases hdef : token = .keyword .defKeyword
  · subst hdef
    refine .inr (CoincidesFrom.behind ?_)
    refine (coincides_prototype hmore).andThen fun p rest rest' _ _ hrest => ?_
    exact (coincides_expression hsemicolon hrest).andThen fun body _ _ _ _ h =>
      coincides_done (Statement.definition ⟨p, body⟩) h
  · by_cases hextern : token = .keyword .externKeyword
    · subst hextern
      exact .inr (((coincides_prototype hmore).map Statement.declaration).behind)
    · left
      have hother {s : Span} {more : List Lexeme} : statement table (⟨token, s⟩ :: more) =
          (expression table (⟨token, s⟩ :: more)).map .evaluation := by
        rw [statement]
        · rintro span more ⟨⟩
          exact hdef rfl
        · rintro span more ⟨⟩
          exact hextern rfl
      rw [hother, hother]
      exact (coincides_expression hsemicolon (.cons hmore)).map _

/-- Whether a statement ends where it has to is decided alike. -/
theorem coincides_whole (hsemicolon : table.lookup ';' = none) {token : Token} {s s' : Span}
    {more more' : List Lexeme} (hmore : Alike more more') :
    Coincides (whole table (⟨token, s⟩ :: more)) (whole table (⟨token, s'⟩ :: more')) ∨
    CoincidesFrom more more' (whole table (⟨token, s⟩ :: more))
      (whole table (⟨token, s'⟩ :: more')) := by
  have hend {start start' : List Lexeme}
      (h : CoincidesFrom start start' (statement table (⟨token, s⟩ :: more))
        (statement table (⟨token, s'⟩ :: more'))) :
      CoincidesFrom start start' (whole table (⟨token, s⟩ :: more))
        (whole table (⟨token, s'⟩ :: more')) := by
    refine h.andThen fun found rest rest' _ _ hrest => ?_
    have hdone := coincides_done found hrest
    have hunexpected := @coincides_unexpected Statement _ _ .terminator hrest
    cases hrest with
    | nil => exact hdone
    | separator | cons =>
      simp only
      split
      · exact hdone
      · exact hunexpected
  exact (coincides_statement hsemicolon hmore).imp hend hend

end Parser

end Kaleidoscope
