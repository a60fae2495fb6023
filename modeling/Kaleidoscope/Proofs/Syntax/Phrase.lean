import Kaleidoscope.Proofs.Syntax.Induction
import Kaleidoscope.Token

/-!
# Expressions as they are written

A phrase is a derivation of the expression grammar: it has a node for every construct, and one for
every pair of parentheses, which a syntax tree has not. So a phrase says both which tokens are
written and which tree is meant, and what is said of unparenthesised operands is said of its nodes.
-/

namespace Kaleidoscope

/-- Written expressions. -/
inductive Phrase where
  | number (value : Float)
  | var (name : String)
  | unary (operator : Char) (operand : Phrase)
  | binary (operator : Char) (left right : Phrase)
  | call (callee : String) (arguments : List Phrase)
  | conditional (condition consequent alternative : Phrase)
  | loop (name : String) (start finish : Phrase) (step : Option Phrase) (body : Phrase)
  | locals (bindings : List (String × Option Phrase)) (body : Phrase)
  /-- An expression in parentheses. -/
  | group (inner : Phrase)

namespace Phrase

mutual

/-- The tokens of a phrase. -/
def tokens : Phrase → List Token
  | number value => [.number value]
  | var name => [.identifier name]
  | unary operator operand => .symbol operator :: operand.tokens
  | binary operator left right => left.tokens ++ .symbol operator :: right.tokens
  | call callee arguments =>
    .identifier callee :: .symbol '(' :: (argumentTokens arguments ++ [.symbol ')'])
  | conditional condition consequent alternative =>
    .keyword .ifKeyword :: (condition.tokens ++
      .keyword .thenKeyword :: (consequent.tokens ++
      .keyword .elseKeyword :: alternative.tokens))
  | loop name start finish step body =>
    .keyword .forKeyword :: .identifier name :: .symbol '=' :: (start.tokens ++
      .symbol ',' :: (finish.tokens ++ (partTokens ',' step ++
      .keyword .inKeyword :: body.tokens)))
  | locals bindings body =>
    .keyword .varKeyword :: (bindingTokens bindings ++ .keyword .inKeyword :: body.tokens)
  | group inner => .symbol '(' :: (inner.tokens ++ [.symbol ')'])

/-- The tokens of arguments, with commas between them. -/
def argumentTokens : List Phrase → List Token
  | [] => []
  | [last] => last.tokens
  | first :: second :: rest => first.tokens ++ .symbol ',' :: argumentTokens (second :: rest)

/-- The tokens of a part that is there only behind a mark. -/
def partTokens (mark : Char) : Option Phrase → List Token
  | none => []
  | some part => .symbol mark :: part.tokens

/-- The tokens of local variables, with commas between them. -/
def bindingTokens : List (String × Option Phrase) → List Token
  | [] => []
  | [(name, value)] => .identifier name :: partTokens '=' value
  | (name, value) :: second :: rest =>
    .identifier name :: (partTokens '=' value ++ .symbol ',' :: bindingTokens (second :: rest))

end

mutual

/-- The tree that a phrase means: parentheses are gone. -/
def erase : Phrase → Expr
  | number value => .number value
  | var name => .var name
  | unary operator operand => .unary operator operand.erase
  | binary operator left right => .binary operator left.erase right.erase
  | call callee arguments => .call callee (eraseArguments arguments)
  | conditional condition consequent alternative =>
    .conditional condition.erase consequent.erase alternative.erase
  | loop name start finish step body =>
    .loop name start.erase finish.erase (erasePart step) body.erase
  | locals bindings body => .locals (eraseBindings bindings) body.erase
  | group inner => inner.erase

/-- The trees that arguments mean. -/
def eraseArguments : List Phrase → List Expr
  | [] => []
  | first :: rest => first.erase :: eraseArguments rest

/-- The tree that an optional part means. -/
def erasePart : Option Phrase → Option Expr
  | none => none
  | some part => some part.erase

/-- The trees that initial values mean. -/
def eraseBindings : List (String × Option Phrase) → List (String × Option Expr)
  | [] => []
  | (name, value) :: rest => (name, erasePart value) :: eraseBindings rest

end

/-- Arguments that others follow are followed by a comma. -/
theorem argumentTokens_cons {rest : List Phrase} (h : rest ≠ []) (first : Phrase) :
    argumentTokens (first :: rest) = first.tokens ++ .symbol ',' :: argumentTokens rest := by
  cases rest with
  | nil => exact (h rfl).elim
  | cons => rfl

/-- Local variables that others follow are followed by a comma. -/
theorem bindingTokens_cons {rest : List (String × Option Phrase)} (h : rest ≠ []) (name : String)
    (value : Option Phrase) : bindingTokens ((name, value) :: rest) =
      .identifier name :: (partTokens '=' value ++ .symbol ',' :: bindingTokens rest) := by
  cases rest with
  | nil => exact (h rfl).elim
  | cons => rfl

/-- What holds of all trees of arguments holds of what each argument means. -/
theorem forall_mem_eraseArguments {Q : Expr → Prop} {arguments : List Phrase} :
    (∀ e ∈ eraseArguments arguments, Q e) ↔ ∀ p ∈ arguments, Q p.erase := by
  induction arguments with
  | nil => simp [eraseArguments]
  | cons first rest ih => rw [eraseArguments, List.forall_mem_cons, List.forall_mem_cons, ih]

/-- What holds of the tree of an optional part holds of what the part means. -/
theorem forall_mem_erasePart {Q : Expr → Prop} {part : Option Phrase} :
    (∀ e ∈ erasePart part, Q e) ↔ ∀ p ∈ part, Q p.erase := by
  cases part <;> simp [erasePart]

/-- What holds of all trees of initial values holds of what each value means. -/
theorem forall_mem_eraseBindings {Q : Expr → Prop} {bindings : List (String × Option Phrase)} :
    (∀ binding ∈ eraseBindings bindings, ∀ e ∈ binding.2, Q e) ↔
      ∀ binding ∈ bindings, ∀ p ∈ binding.2, Q p.erase := by
  induction bindings with
  | nil => simp [eraseBindings]
  | cons binding rest ih =>
    obtain ⟨name, value⟩ := binding
    rw [eraseBindings, List.forall_mem_cons, List.forall_mem_cons, ih, forall_mem_erasePart]

/-- Every node of a phrase has a property. -/
inductive Every (P : Phrase → Prop) : Phrase → Prop where
  | number {value} : P (.number value) → Every P (.number value)
  | var {name} : P (.var name) → Every P (.var name)
  | unary {operator operand} : P (.unary operator operand) → Every P operand →
      Every P (.unary operator operand)
  | binary {operator left right} : P (.binary operator left right) → Every P left →
      Every P right → Every P (.binary operator left right)
  | call {callee arguments} : P (.call callee arguments) → (∀ e ∈ arguments, Every P e) →
      Every P (.call callee arguments)
  | conditional {condition consequent alternative} :
      P (.conditional condition consequent alternative) → Every P condition →
      Every P consequent → Every P alternative →
      Every P (.conditional condition consequent alternative)
  | loop {name start finish step body} : P (.loop name start finish step body) →
      Every P start → Every P finish → (∀ e ∈ step, Every P e) → Every P body →
      Every P (.loop name start finish step body)
  | locals {bindings body} : P (.locals bindings body) →
      (∀ binding ∈ bindings, ∀ e ∈ binding.2, Every P e) → Every P body →
      Every P (.locals bindings body)
  | group {inner} : P (.group inner) → Every P inner → Every P (.group inner)

/-- A weaker property holds of every node too. -/
theorem Every.mono {P Q : Phrase → Prop} {p : Phrase} (h : p.Every P) (hPQ : ∀ p, P p → Q p) :
    p.Every Q := by
  induction h with
  | number h => exact .number (hPQ _ h)
  | var h => exact .var (hPQ _ h)
  | unary h _ ih => exact .unary (hPQ _ h) ih
  | binary h _ _ ihl ihr => exact .binary (hPQ _ h) ihl ihr
  | call h _ ih => exact .call (hPQ _ h) ih
  | conditional h _ _ _ ihc iht ihe => exact .conditional (hPQ _ h) ihc iht ihe
  | loop h _ _ _ _ ihs ihf ihstep ihb => exact .loop (hPQ _ h) ihs ihf ihstep ihb
  | locals h _ _ ihs ihb => exact .locals (hPQ _ h) ihs ihb
  | group h _ ih => exact .group (hPQ _ h) ih

/-- Is the phrase a pair of parentheses with what is in them? -/
def isGroup : Phrase → Bool
  | group _ => true
  | _ => false

/-- What every node of a phrase has to do with the tree is said of the tree. -/
theorem Every.erase {P : Phrase → Prop} {Q : Expr → Prop} {p : Phrase} (hp : p.Every P)
    (h : ∀ p, P p → p.isGroup = false → Q p.erase) : p.erase.Every Q := by
  induction hp with
  | number hp => exact .number (h _ hp rfl)
  | var hp => exact .var (h _ hp rfl)
  | unary hp _ ih => exact .unary (h _ hp rfl) ih
  | binary hp _ _ ihl ihr => exact .binary (h _ hp rfl) ihl ihr
  | call hp _ ih => exact .call (h _ hp rfl) (forall_mem_eraseArguments.2 ih)
  | conditional hp _ _ _ ihc iht iha => exact .conditional (h _ hp rfl) ihc iht iha
  | loop hp _ _ _ _ ihs ihf ihstep ihb =>
    exact .loop (h _ hp rfl) ihs ihf (forall_mem_erasePart.2 ihstep) ihb
  | locals hp _ _ ihs ihb => exact .locals (h _ hp rfl) (forall_mem_eraseBindings.2 ihs) ihb
  | group _ _ ih => exact ih

/-- What is said of the nodes of the tree is said of those of the phrase that are not
parentheses. -/
theorem Every.of_erase {P R : Phrase → Prop} {Q : Expr → Prop} {p : Phrase} (hp : p.Every P)
    (he : p.erase.Every Q) (h : ∀ p, P p → (p.isGroup = false → Q p.erase) → R p) : p.Every R := by
  induction hp with
  | number hp =>
    cases he with
    | number he => exact .number (h _ hp fun _ => he)
  | var hp =>
    cases he with
    | var he => exact .var (h _ hp fun _ => he)
  | unary hp _ ih =>
    cases he with
    | unary he ho => exact .unary (h _ hp fun _ => he) (ih ho)
  | binary hp _ _ ihl ihr =>
    cases he with
    | binary he hl hr => exact .binary (h _ hp fun _ => he) (ihl hl) (ihr hr)
  | call hp _ ih =>
    cases he with
    | call he hvalues =>
      have hvalues := forall_mem_eraseArguments.1 hvalues
      exact .call (h _ hp fun _ => he) fun p hp => ih p hp (hvalues p hp)
  | conditional hp _ _ _ ihc iht iha =>
    cases he with
    | conditional he hc ht ha =>
      exact .conditional (h _ hp fun _ => he) (ihc hc) (iht ht) (iha ha)
  | loop hp _ _ _ _ ihs ihf ihstep ihb =>
    cases he with
    | loop he hs hf hstep hb =>
      have hstep := forall_mem_erasePart.1 hstep
      exact .loop (h _ hp fun _ => he) (ihs hs) (ihf hf) (fun p hp => ihstep p hp (hstep p hp))
        (ihb hb)
  | locals hp _ _ ihs ihb =>
    cases he with
    | locals he hbs hb =>
      have hbs := forall_mem_eraseBindings.1 hbs
      exact .locals (h _ hp fun _ => he) (fun b hb p hp => ihs b hb p hp (hbs b hb p hp)) (ihb hb)
  | group hp _ ih => exact .group (h _ hp nofun) (ih he)

/-- The tokens of an argument are among those of the list of arguments. -/
theorem tokens_subset_arguments {p : Phrase} {arguments : List Phrase} (hp : p ∈ arguments) :
    p.tokens ⊆ argumentTokens arguments := by
  induction arguments with
  | nil => cases hp
  | cons first rest ih =>
    by_cases hrest : rest = []
    · subst hrest
      obtain rfl := List.mem_singleton.1 hp
      exact List.Subset.refl _
    · rw [argumentTokens_cons hrest]
      rcases List.mem_cons.1 hp with rfl | hp
      · exact List.subset_append_left _ _
      · exact fun token htoken => List.mem_append_right _ (List.mem_cons_of_mem _ (ih hp htoken))

/-- An optional part has its tokens. -/
theorem tokens_subset_part {p : Phrase} {mark : Char} {part : Option Phrase} (hp : p ∈ part) :
    p.tokens ⊆ partTokens mark part := by
  obtain rfl := Option.mem_def.1 hp
  exact List.subset_cons_self _ _

/-- The tokens of an initial value are among those of the list of variables. -/
theorem tokens_subset_bindings {p : Phrase} {bindings : List (String × Option Phrase)}
    {binding : String × Option Phrase} (hbinding : binding ∈ bindings) (hp : p ∈ binding.2) :
    p.tokens ⊆ bindingTokens bindings := by
  induction bindings with
  | nil => cases hbinding
  | cons first rest ih =>
    obtain ⟨name, value⟩ := first
    intro token htoken
    by_cases hrest : rest = []
    · subst hrest
      obtain rfl := List.mem_singleton.1 hbinding
      exact List.mem_cons_of_mem _ (tokens_subset_part hp htoken)
    · rw [bindingTokens_cons hrest]
      refine List.mem_cons_of_mem _ (List.mem_append.2 ?_)
      rcases List.mem_cons.1 hbinding with rfl | hbinding
      · exact .inl (tokens_subset_part hp htoken)
      · exact .inr (List.mem_cons_of_mem _ (ih hbinding htoken))

/-- Every node of a phrase is written with tokens of the phrase. -/
theorem Every.tokens_subset {P : Phrase → Prop} {p : Phrase} (hp : p.Every P) {tokens : List Token}
    (h : p.tokens ⊆ tokens) : p.Every fun q => P q ∧ q.tokens ⊆ tokens := by
  induction hp with
  | number hp => exact .number ⟨hp, h⟩
  | var hp => exact .var ⟨hp, h⟩
  | unary hp _ ih => exact .unary ⟨hp, h⟩ (ih fun token ht => h (List.mem_cons_of_mem _ ht))
  | binary hp _ _ ihl ihr =>
    exact .binary ⟨hp, h⟩ (ihl fun token ht => h (by simp [Phrase.tokens, ht]))
      (ihr fun token ht => h (by simp [Phrase.tokens, ht]))
  | call hp _ ih =>
    exact .call ⟨hp, h⟩ fun e he => ih e he fun token ht =>
      h (by simp [Phrase.tokens, tokens_subset_arguments he ht])
  | conditional hp _ _ _ ihc iht iha =>
    exact .conditional ⟨hp, h⟩ (ihc fun token ht => h (by simp [Phrase.tokens, ht]))
      (iht fun token ht => h (by simp [Phrase.tokens, ht]))
      (iha fun token ht => h (by simp [Phrase.tokens, ht]))
  | loop hp _ _ _ _ ihs ihf ihstep ihb =>
    exact .loop ⟨hp, h⟩ (ihs fun token ht => h (by simp [Phrase.tokens, ht]))
      (ihf fun token ht => h (by simp [Phrase.tokens, ht]))
      (fun e he => ihstep e he fun token ht => h (by simp [Phrase.tokens, tokens_subset_part he ht]))
      (ihb fun token ht => h (by simp [Phrase.tokens, ht]))
  | locals hp _ _ ihs ihb =>
    exact .locals ⟨hp, h⟩
      (fun binding hbinding e he => ihs binding hbinding e he fun token ht =>
        h (by simp [Phrase.tokens, tokens_subset_bindings hbinding he ht]))
      (ihb fun token ht => h (by simp [Phrase.tokens, ht]))
  | group hp _ ih => exact .group ⟨hp, h⟩ (ih fun token ht => h (by simp [Phrase.tokens, ht]))

/-- Is the phrase an operator between two operands, without parentheses around it? -/
def isBinary : Phrase → Bool
  | binary .. => true
  | _ => false

/-- The precedence of an operator between two operands, without parentheses around it. -/
def precedence? (table : OperatorTable) : Phrase → Option Nat
  | binary operator _ _ => table.lookup operator
  | _ => none

/-- Only operators between operands have a precedence. -/
theorem precedence?_eq_none (table : OperatorTable) {p : Phrase} (h : p.isBinary = false) :
    p.precedence? table = none := by
  cases p with
  | binary => cases h
  | _ => rfl

/-- The node fits the grammar. An infix operator is one of the table; a prefix operator is a symbol
that may name an operator, and its operand is a prefix operator again or no operator application. -/
def Grammatical (table : OperatorTable) : Phrase → Prop
  | unary operator operand => Token.isOperatorChar operator ∧ operand.isBinary = false
  | binary operator _ _ => (table.lookup operator).isSome
  | locals bindings _ => bindings ≠ []
  | _ => True

/-- The operands of the node need no parentheses: on the left an operator that binds at least as
tightly, on the right one that binds more tightly. -/
def Grouped (table : OperatorTable) : Phrase → Prop
  | binary operator left right => ∀ precedence, table.lookup operator = some precedence →
    (∀ other, left.precedence? table = some other → precedence ≤ other) ∧
      ∀ other, right.precedence? table = some other → precedence < other
  | _ => True

/-- Does the phrase end in a conditional, a loop or local variables without parentheses around
them? Those go on as long as they can. -/
def endsOpen : Phrase → Bool
  | unary _ operand => operand.endsOpen
  | binary _ _ right => right.endsOpen
  | conditional .. | loop .. | locals .. => true
  | _ => false

/-- Parentheses stand around the operand of a prefix operator if it is an operator application, and
around the operands of the others where they would be grouped otherwise or would go on. -/
def Bracketed (table : OperatorTable) : Phrase → Prop
  | unary _ operand => operand.isBinary = false
  | binary operator left right => Grouped table (binary operator left right) ∧ left.endsOpen = false
  | _ => True

end Phrase

end Kaleidoscope
