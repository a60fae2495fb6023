import Kaleidoscope.Proofs.Syntax.Phrase

/-!
# Parentheses that belong together

A symbol may stand in a program as an operator or as punctuation, and a closing parenthesis may be
either. The tokens of a phrase say nothing about this, so its marks are listed along with them.
Those parentheses that are no operators are balanced: a phrase opens one only where it closes it
again.
-/

namespace Kaleidoscope

namespace Token

/-- Read from left to right, where so many parentheses are open: none is closed that has not been
opened, and in the end all are closed. -/
def balancedFrom (depth : Nat) : List Token → Bool
  | [] => depth = 0
  | token :: rest =>
    if token = .symbol '(' then balancedFrom (depth + 1) rest
    else if token = .symbol ')' then 0 < depth && balancedFrom (depth - 1) rest
    else balancedFrom depth rest

/-- Wherever the tokens stand, they do not change whether all of it is balanced. -/
def Neutral (tokens : List Token) : Prop :=
  ∀ depth rest, balancedFrom depth (tokens ++ rest) = balancedFrom depth rest

variable {token : Token} {tokens later : List Token}

/-- No tokens are neutral. -/
theorem neutral_nil : Neutral [] := fun _ _ => rfl

/-- Neutral tokens may be put one after the other. -/
theorem Neutral.append (h : Neutral tokens) (hlater : Neutral later) : Neutral (tokens ++ later) := by
  intro depth rest
  rw [List.append_assoc, h, hlater]

/-- A token that is no parenthesis. -/
theorem Neutral.cons (h : Neutral tokens) (hopen : token ≠ .symbol '(')
    (hclose : token ≠ .symbol ')') : Neutral (token :: tokens) := by
  intro depth rest
  rw [List.cons_append, balancedFrom, if_neg hopen, if_neg hclose, h]

/-- A pair of parentheses. -/
theorem Neutral.parenthesized (h : Neutral tokens) :
    Neutral (.symbol '(' :: (tokens ++ [.symbol ')'])) := by
  intro depth rest
  have hclose : balancedFrom (depth + 1) (.symbol ')' :: rest) = balancedFrom depth rest := by
    rw [balancedFrom, if_neg (by decide), if_pos rfl, Nat.add_sub_cancel,
      decide_eq_true (Nat.succ_pos depth), Bool.true_and]
  rw [List.cons_append, balancedFrom, if_pos rfl, List.append_assoc, h, List.singleton_append, hclose]

/-- The parentheses of neutral tokens are balanced. -/
theorem Neutral.balanced (h : Neutral tokens) : balancedFrom 0 tokens = true := by
  have hbalanced := h 0 []
  rwa [List.append_nil] at hbalanced

end Token

/-- A token as it stands in a program. -/
inductive Mark where
  /-- A symbol that is applied to operands, or that is being made an operator. -/
  | operator (symbol : Char)
  | plain (token : Token)

namespace Mark

/-- The token, however it stands. -/
def token : Mark → Token
  | operator symbol => .symbol symbol
  | plain token => token

/-- The token, if it stands as no operator. -/
def plain? : Mark → Option Token
  | operator _ => none
  | plain token => some token

variable {marks later : List Mark} {P : Char → Prop}

/-- What is left of the marks without the operators is neutral, and the operators have a
property. -/
structure Orderly (P : Char → Prop) (marks : List Mark) : Prop where
  neutral : Token.Neutral (marks.filterMap plain?)
  operators : ∀ symbol, operator symbol ∈ marks → P symbol

/-- No marks are orderly. -/
theorem orderly_nil : Orderly P [] := ⟨Token.neutral_nil, nofun⟩

/-- Orderly marks may be put one after the other. -/
theorem Orderly.append (h : Orderly P marks) (hlater : Orderly P later) :
    Orderly P (marks ++ later) where
  neutral := by
    rw [List.filterMap_append]
    exact h.neutral.append hlater.neutral
  operators symbol hmem := (List.mem_append.1 hmem).elim (h.operators symbol) (hlater.operators symbol)

/-- An operator with the property does no harm. -/
theorem Orderly.operator (h : Orderly P marks) {symbol : Char} (hsymbol : P symbol) :
    Orderly P (operator symbol :: marks) where
  neutral := h.neutral
  operators other hmem := by
    rcases List.mem_cons.1 hmem with heq | hmem
    · exact Mark.operator.inj heq ▸ hsymbol
    · exact h.operators other hmem

/-- Nor does a token that is no parenthesis. -/
theorem Orderly.plain (h : Orderly P marks) {token : Token} (hopen : token ≠ .symbol '(')
    (hclose : token ≠ .symbol ')') : Orderly P (plain token :: marks) where
  neutral := h.neutral.cons hopen hclose
  operators symbol hmem := by
    rcases List.mem_cons.1 hmem with heq | hmem
    · cases heq
    · exact h.operators symbol hmem

/-- A reserved word may be put in front. -/
theorem Orderly.keyword (h : Orderly P marks) (word : Keyword) :
    Orderly P (.plain (.keyword word) :: marks) := h.plain nofun nofun

/-- An identifier may be put in front. -/
theorem Orderly.identifier (h : Orderly P marks) (name : String) :
    Orderly P (.plain (.identifier name) :: marks) := h.plain nofun nofun

/-- A number may be put in front. -/
theorem Orderly.number (h : Orderly P marks) (value : Float) :
    Orderly P (.plain (.number value) :: marks) := h.plain nofun nofun

/-- A symbol that is no parenthesis may be put in front. -/
theorem Orderly.symbol (h : Orderly P marks) {c : Char} (hopen : c ≠ '(') (hclose : c ≠ ')') :
    Orderly P (.plain (.symbol c) :: marks) :=
  h.plain (fun heq => hopen (Token.symbol.inj heq)) fun heq => hclose (Token.symbol.inj heq)

/-- Nor do parentheses around the whole. -/
theorem Orderly.parenthesized (h : Orderly P marks) :
    Orderly P (.plain (.symbol '(') :: (marks ++ [.plain (.symbol ')')])) where
  neutral := by
    change Token.Neutral (.symbol '(' :: (marks ++ [Mark.plain (.symbol ')')]).filterMap plain?)
    rw [List.filterMap_append]
    exact h.neutral.parenthesized
  operators symbol hmem := by
    simp only [List.mem_cons, List.mem_append, List.not_mem_nil, or_false, reduceCtorEq,
      false_or] at hmem
    exact h.operators symbol hmem

/-- Operators that are no parentheses make no difference. -/
theorem balancedFrom_map_token (hopen : operator '(' ∉ marks) (hclose : operator ')' ∉ marks)
    (depth : Nat) : Token.balancedFrom depth (marks.map token) =
      Token.balancedFrom depth (marks.filterMap plain?) := by
  induction marks generalizing depth with
  | nil => rfl
  | cons first rest ih =>
    rw [List.mem_cons, not_or] at hopen hclose
    have hrest := ih hopen.2 hclose.2
    cases first with
    | operator symbol =>
      have hopen' : Token.symbol symbol ≠ .symbol '(' := by
        rintro ⟨⟩
        exact hopen.1 rfl
      have hclose' : Token.symbol symbol ≠ .symbol ')' := by
        rintro ⟨⟩
        exact hclose.1 rfl
      rw [List.map_cons, token, Token.balancedFrom, if_neg hopen', if_neg hclose', hrest]
      rfl
    | plain t =>
      change Token.balancedFrom depth (t :: rest.map token) =
        Token.balancedFrom depth (t :: rest.filterMap plain?)
      rw [Token.balancedFrom, Token.balancedFrom]
      simp only [hrest]

end Mark

namespace Phrase

mutual

/-- The tokens of a phrase as they stand in it. -/
def marks : Phrase → List Mark
  | number value => [.plain (.number value)]
  | var name => [.plain (.identifier name)]
  | unary operator operand => .operator operator :: operand.marks
  | binary operator left right => left.marks ++ .operator operator :: right.marks
  | call callee arguments => .plain (.identifier callee) ::
      .plain (.symbol '(') :: (argumentMarks arguments ++ [.plain (.symbol ')')])
  | conditional condition consequent alternative =>
    .plain (.keyword .ifKeyword) :: (condition.marks ++
      .plain (.keyword .thenKeyword) :: (consequent.marks ++
      .plain (.keyword .elseKeyword) :: alternative.marks))
  | loop name start finish step body =>
    .plain (.keyword .forKeyword) :: .plain (.identifier name) :: .plain (.symbol '=') ::
      (start.marks ++ .plain (.symbol ',') :: (finish.marks ++ (partMarks ',' step ++
      .plain (.keyword .inKeyword) :: body.marks)))
  | locals bindings body =>
    .plain (.keyword .varKeyword) ::
      (bindingMarks bindings ++ .plain (.keyword .inKeyword) :: body.marks)
  | group inner => .plain (.symbol '(') :: (inner.marks ++ [.plain (.symbol ')')])

/-- The tokens of arguments. -/
def argumentMarks : List Phrase → List Mark
  | [] => []
  | [last] => last.marks
  | first :: second :: rest => first.marks ++ .plain (.symbol ',') :: argumentMarks (second :: rest)

/-- The tokens of an optional part. -/
def partMarks (mark : Char) : Option Phrase → List Mark
  | none => []
  | some part => .plain (.symbol mark) :: part.marks

/-- The tokens of local variables. -/
def bindingMarks : List (String × Option Phrase) → List Mark
  | [] => []
  | [(name, value)] => .plain (.identifier name) :: partMarks '=' value
  | (name, value) :: second :: rest => .plain (.identifier name) ::
      (partMarks '=' value ++ .plain (.symbol ',') :: bindingMarks (second :: rest))

end

mutual

/-- They are the tokens of the phrase. -/
theorem map_token_marks : (p : Phrase) → p.marks.map Mark.token = p.tokens
  | number _ | var _ => rfl
  | unary _ operand => by rw [marks, tokens, List.map_cons, map_token_marks operand, Mark.token]
  | binary _ left right => by
    rw [marks, tokens, List.map_append, List.map_cons, map_token_marks left, map_token_marks right,
      Mark.token]
  | call _ arguments => by
    simp only [marks, tokens, List.map_cons, List.map_append, map_token_argumentMarks arguments,
      Mark.token, List.map_nil]
  | conditional condition consequent alternative => by
    simp only [marks, tokens, List.map_cons, List.map_append, map_token_marks condition,
      map_token_marks consequent, map_token_marks alternative, Mark.token]
  | loop _ start finish step body => by
    simp only [marks, tokens, List.map_cons, List.map_append, map_token_marks start,
      map_token_marks finish, map_token_partMarks _ step, map_token_marks body, Mark.token]
  | locals bindings body => by
    simp only [marks, tokens, List.map_cons, List.map_append, map_token_bindingMarks bindings,
      map_token_marks body, Mark.token]
  | group inner => by
    simp only [marks, tokens, List.map_cons, List.map_append, map_token_marks inner, Mark.token,
      List.map_nil]

/-- The marks of arguments have their tokens. -/
theorem map_token_argumentMarks : (arguments : List Phrase) →
    (argumentMarks arguments).map Mark.token = argumentTokens arguments
  | [] => rfl
  | [last] => map_token_marks last
  | first :: second :: rest => by
    rw [argumentMarks, argumentTokens, List.map_append, List.map_cons, map_token_marks first,
      map_token_argumentMarks (second :: rest), Mark.token]

/-- The marks of an optional part have its tokens. -/
theorem map_token_partMarks (mark : Char) : (part : Option Phrase) →
    (partMarks mark part).map Mark.token = partTokens mark part
  | none => rfl
  | some part => by rw [partMarks, partTokens, List.map_cons, map_token_marks part, Mark.token]

/-- The marks of local variables have their tokens. -/
theorem map_token_bindingMarks : (bindings : List (String × Option Phrase)) →
    (bindingMarks bindings).map Mark.token = bindingTokens bindings
  | [] => rfl
  | [(_, value)] => by
    rw [bindingMarks, bindingTokens, List.map_cons, map_token_partMarks _ value, Mark.token]
  | (_, value) :: second :: rest => by
    rw [bindingMarks, bindingTokens, List.map_cons, List.map_append, List.map_cons,
      map_token_partMarks _ value, map_token_bindingMarks (second :: rest), Mark.token, Mark.token]

end

variable {P : Char → Prop}

/-- The operator of the node has a property, if it is an operator. -/
def OperatorIs (P : Char → Prop) : Phrase → Prop
  | unary operator _ | binary operator _ _ => P operator
  | _ => True

/-- Arguments are orderly if each one is. -/
theorem orderly_argumentMarks {arguments : List Phrase}
    (h : ∀ p ∈ arguments, Mark.Orderly P p.marks) : Mark.Orderly P (argumentMarks arguments) := by
  induction arguments with
  | nil => exact Mark.orderly_nil
  | cons first rest ih =>
    obtain ⟨hfirst, hrest⟩ := List.forall_mem_cons.1 h
    cases rest with
    | nil => exact hfirst
    | cons second rest => exact hfirst.append ((ih hrest).symbol (by decide) (by decide))

/-- An optional part is orderly if it is so behind its mark. -/
theorem orderly_partMarks {mark : Char} (hopen : mark ≠ '(') (hclose : mark ≠ ')')
    {part : Option Phrase} (h : ∀ p ∈ part, Mark.Orderly P p.marks) :
    Mark.Orderly P (partMarks mark part) := by
  cases part with
  | none => exact Mark.orderly_nil
  | some part => exact (h part rfl).symbol hopen hclose

/-- Local variables are orderly if their initial values are. -/
theorem orderly_bindingMarks {bindings : List (String × Option Phrase)}
    (h : ∀ binding ∈ bindings, ∀ p ∈ binding.2, Mark.Orderly P p.marks) :
    Mark.Orderly P (bindingMarks bindings) := by
  induction bindings with
  | nil => exact Mark.orderly_nil
  | cons binding rest ih =>
    obtain ⟨name, value⟩ := binding
    obtain ⟨hfirst, hrest⟩ := List.forall_mem_cons.1 h
    have hvalue : Mark.Orderly P (partMarks '=' value) :=
      orderly_partMarks (by decide) (by decide) hfirst
    cases rest with
    | nil => exact hvalue.identifier name
    | cons second rest =>
      exact (hvalue.append ((ih hrest).symbol (by decide) (by decide))).identifier name

/-- The parentheses of a phrase are balanced, apart from those that are operators in it. -/
theorem Every.orderly {p : Phrase} (h : p.Every (OperatorIs P)) : Mark.Orderly P p.marks := by
  induction h with
  | @number value => exact Mark.orderly_nil.number value
  | @var name => exact Mark.orderly_nil.identifier name
  | unary hoperator _ ih => exact ih.operator hoperator
  | binary hoperator _ _ ihl ihr => exact ihl.append (ihr.operator hoperator)
  | @call callee _ _ _ ih => exact (orderly_argumentMarks ih).parenthesized.identifier callee
  | conditional _ _ _ _ ihc iht iha =>
    exact (ihc.append ((iht.append (iha.keyword _)).keyword _)).keyword _
  | @loop name _ _ step _ _ _ _ _ _ ihs ihf ihstep ihb =>
    have hstep : Mark.Orderly P (partMarks ',' step) :=
      orderly_partMarks (by decide) (by decide) ihstep
    have hbehind := ihf.append (hstep.append (ihb.keyword .inKeyword))
    have hstart := ihs.append (hbehind.symbol (c := ',') (by decide) (by decide))
    exact ((hstart.symbol (by decide) (by decide)).identifier name).keyword _
  | locals _ _ _ ihs ihb =>
    exact ((orderly_bindingMarks ihs).append (ihb.keyword _)).keyword _
  | group _ _ ih => exact ih.parenthesized

end Phrase

end Kaleidoscope
