import Kaleidoscope.Parser.Expression
import Kaleidoscope.Proofs.Parser.Reading

/-!
# How expressions are read, step by step

Each function of the parser is described by what its readings accept, in terms of what the readings
inside of them accept. What follows from all of them together is shown by induction, on the number
of tokens or on the syntax.
-/

namespace Kaleidoscope.Parser

open Reading

variable {table : OperatorTable} {tokens rest : List Lexeme} {e : Expr}

/-- An operator that comes next, if one does, binds more loosely than `weakest`. -/
def Loose (table : OperatorTable) (weakest : Nat) (tokens : List Lexeme) : Prop :=
  ∀ c precedence more, Takes (.symbol c) tokens more → table.lookup c = some precedence →
    precedence < weakest

/-- Looser than one operator is looser than a tighter one. -/
theorem Loose.mono {weakest tighter : Nat} (h : Loose table weakest tokens)
    (hle : weakest ≤ tighter) : Loose table tighter tokens :=
  fun c precedence more htakes hlookup =>
    Nat.lt_of_lt_of_le (h c precedence more htakes hlookup) hle

/-- An expression is an operand with the operators behind it. -/
theorem accepts_expression : (expression table tokens).Accepts e rest ↔
    ∃ left mid, (unary table tokens).Accepts left mid ∧
      (fold table 0 left mid).Accepts e rest := by
  rw [expression]
  simp only [accepts_andThen, exists_prop]

/-- Whether an operator takes the operand is decided alike by folding those that are tighter. -/
theorem tighter_eq_fold (precedence : Nat) (operand : Expr) :
    tighter table precedence operand tokens = fold table (precedence + 1) operand tokens := by
  rw [tighter.eq_def]
  split
  · rename_i c span more
    split
    · rfl
    · rename_i hloose
      rw [fold]
      cases hlookup : table.lookup c with
      | none => rfl
      | some next =>
        rw [hlookup, Option.any_some, decide_eq_true_eq] at hloose
        simp only [if_pos (show next < precedence + 1 by omega)]
  · rename_i hsymbol
    rw [fold.eq_def]
    split
    · rename_i c span more
      exact (hsymbol c span more rfl).elim
    · rfl

/-- Folding ends before an operator that is too loose, or takes an operator with its right operand
and goes on. -/
theorem accepts_fold {weakest : Nat} {left : Expr} :
    (fold table weakest left tokens).Accepts e rest ↔
      (Loose table weakest tokens ∧ e = left ∧ rest = tokens) ∨
      ∃ c precedence more operand mid right mid', Takes (.symbol c) tokens more ∧
        table.lookup c = some precedence ∧ weakest ≤ precedence ∧
        (unary table more).Accepts operand mid ∧
        (fold table (precedence + 1) operand mid).Accepts right mid' ∧
        (fold table weakest (.binary c left right) mid').Accepts e rest := by
  rw [fold.eq_def]
  split
  · rename_i c span more
    have hfirst (c' : Char) (more' : List Lexeme)
        (h : Takes (.symbol c') (⟨.symbol c, span⟩ :: more) more') : c' = c ∧ more' = more := by
      obtain ⟨span', h⟩ := h
      cases h
      exact ⟨rfl, rfl⟩
    cases hlookup : table.lookup c with
    | none =>
      simp only [accepts_done]
      refine ⟨fun h => .inl ⟨?_, h⟩, ?_⟩
      · intro c' precedence more' htakes hlookup'
        obtain ⟨rfl, -⟩ := hfirst c' more' htakes
        rw [hlookup] at hlookup'
        cases hlookup'
      · rintro (⟨-, h⟩ | ⟨c', precedence, more', -, -, -, -, htakes, hlookup', -⟩)
        · exact h
        · obtain ⟨rfl, -⟩ := hfirst c' more' htakes
          rw [hlookup] at hlookup'
          cases hlookup'
    | some precedence =>
      by_cases hloose : precedence < weakest
      · simp only [if_pos hloose, accepts_done]
        refine ⟨fun h => .inl ⟨?_, h⟩, ?_⟩
        · intro c' precedence' more' htakes hlookup'
          obtain ⟨rfl, -⟩ := hfirst c' more' htakes
          rw [hlookup, Option.some.injEq] at hlookup'
          exact hlookup' ▸ hloose
        · rintro (⟨-, h⟩ | ⟨c', precedence', more', -, -, -, -, htakes, hlookup', hle, -⟩)
          · exact h
          · obtain ⟨rfl, -⟩ := hfirst c' more' htakes
            rw [hlookup, Option.some.injEq] at hlookup'
            omega
      · simp only [if_neg hloose, accepts_past, accepts_andThen, exists_prop, tighter_eq_fold]
        constructor
        · rintro ⟨operand, mid, hunary, right, mid', hright, h⟩
          exact .inr ⟨c, precedence, more, operand, mid, right, mid', ⟨span, rfl⟩, hlookup,
            Nat.le_of_not_lt hloose, hunary, hright, h⟩
        · rintro (⟨hnone, -⟩ | ⟨c', precedence', more', operand, mid, right, mid', htakes, hlookup',
            -, hunary, hright, h⟩)
          · exact (hloose (hnone c precedence more ⟨span, rfl⟩ hlookup)).elim
          · obtain ⟨rfl, rfl⟩ := hfirst c' more' htakes
            rw [hlookup, Option.some.injEq] at hlookup'
            subst hlookup'
            exact ⟨operand, mid, hunary, right, mid', hright, h⟩
  · rename_i hsymbol
    rw [accepts_done]
    refine ⟨fun h => .inl ⟨?_, h⟩, ?_⟩
    · rintro c precedence more ⟨span, rfl⟩ -
      exact (hsymbol c span more rfl).elim
    · rintro (⟨-, h⟩ | ⟨c, precedence, more, -, -, -, -, ⟨span, rfl⟩, -⟩)
      · exact h
      · exact (hsymbol c span more rfl).elim

/-- A token names a prefix operator exactly if it is a symbol that may name one. -/
theorem operator?_eq_some_iff {token : Token} {c : Char} :
    token.operator? = some c ↔ token = .symbol c ∧ Token.isOperatorChar c := by
  cases token with
  | symbol c' =>
    rw [Token.operator?]
    split
    · rename_i h
      constructor
      · intro heq
        cases heq
        exact ⟨rfl, h⟩
      · rintro ⟨heq, -⟩
        cases heq
        rfl
    · rename_i h
      constructor
      · intro heq
        cases heq
      · rintro ⟨heq, h'⟩
        cases heq
        exact (h h').elim
  | _ => simp [Token.operator?]

/-- Prefix operators are taken as long as they come. -/
theorem accepts_unary : (unary table tokens).Accepts e rest ↔
    (∃ c more operand, Takes (.symbol c) tokens more ∧ Token.isOperatorChar c ∧
      (unary table more).Accepts operand rest ∧ e = .unary c operand) ∨
    (∀ c more, Takes (.symbol c) tokens more → ¬ Token.isOperatorChar c) ∧
      (primary table tokens).Accepts e rest := by
  cases tokens with
  | nil =>
    rw [unary, accepts_unexpected, false_iff]
    rintro (⟨c, more, operand, ⟨span, htakes⟩, -⟩ | ⟨-, h⟩)
    · cases htakes
    · rw [primary.eq_def] at h
      exact accepts_unexpected.1 h
  | cons first more =>
    rw [unary]
    have hfirst (c : Char) (more' : List Lexeme) (h : Takes (.symbol c) (first :: more) more') :
        first.token = .symbol c ∧ more = more' :=
      (takes_cons first more).unique h
    cases hoperator : first.token.operator? with
    | some c =>
      obtain ⟨htoken, hc⟩ := operator?_eq_some_iff.1 hoperator
      have htakes : Takes (.symbol c) (first :: more) more := htoken ▸ takes_cons first more
      simp only [accepts_past, accepts_andThen, accepts_done, exists_prop]
      constructor
      · rintro ⟨operand, mid, hunary, rfl, rfl⟩
        exact .inl ⟨c, more, operand, htakes, hc, hunary, rfl⟩
      · rintro (⟨c', more', operand, htakes', -, hunary, rfl⟩ | ⟨hnone, -⟩)
        · obtain ⟨heq, rfl⟩ := htakes.unique htakes'
          cases heq
          exact ⟨operand, rest, hunary, rfl, rfl⟩
        · exact (hnone c more htakes hc).elim
    | none =>
      have hnone (c : Char) (more' : List Lexeme) (h : Takes (.symbol c) (first :: more) more') :
          ¬ Token.isOperatorChar c := by
        intro hc
        rw [operator?_eq_some_iff.2 ⟨(hfirst c more' h).1, hc⟩] at hoperator
        cases hoperator
      refine ⟨fun h => .inr ⟨hnone, h⟩, ?_⟩
      rintro (⟨c, more', operand, htakes, hc, -⟩ | ⟨-, h⟩)
      · exact (hnone c more' htakes hc).elim
      · exact h

/-- What an expression that is no operator application begins with and consists of. -/
inductive AcceptsPrimary (table : OperatorTable) (tokens : List Lexeme) :
    Expr → List Lexeme → Prop where
  | number {value rest} : Takes (.number value) tokens rest →
      AcceptsPrimary table tokens (.number value) rest
  | var {name rest} : Takes (.identifier name) tokens rest →
      (∀ more, ¬ Takes (.symbol '(') rest more) → AcceptsPrimary table tokens (.var name) rest
  | call {name opened more values rest} : Takes (.identifier name) tokens opened →
      Takes (.symbol '(') opened more → (arguments table more).Accepts values rest →
      AcceptsPrimary table tokens (.call name values) rest
  | group {more inner closed rest} : Takes (.symbol '(') tokens more →
      (expression table more).Accepts inner closed → Takes (.symbol ')') closed rest →
      AcceptsPrimary table tokens inner rest
  | conditional {more condition tested first consequent middle second alternative rest} :
      Takes (.keyword .ifKeyword) tokens more →
      (expression table more).Accepts condition tested →
      Takes (.keyword .thenKeyword) tested first →
      (expression table first).Accepts consequent middle →
      Takes (.keyword .elseKeyword) middle second →
      (expression table second).Accepts alternative rest →
      AcceptsPrimary table tokens (.conditional condition consequent alternative) rest
  | loop {more name named first start started second finish finished step stepped third body rest} :
      Takes (.keyword .forKeyword) tokens more → Takes (.identifier name) more named →
      Takes (.symbol '=') named first → (expression table first).Accepts start started →
      Takes (.symbol ',') started second → (expression table second).Accepts finish finished →
      (optional table ',' finished).Accepts step stepped →
      Takes (.keyword .inKeyword) stepped third → (expression table third).Accepts body rest →
      AcceptsPrimary table tokens (.loop name start finish step body) rest
  | locals {more bound bindingsEnd first body rest} : Takes (.keyword .varKeyword) tokens more →
      (bindings table more).Accepts bound bindingsEnd →
      Takes (.keyword .inKeyword) bindingsEnd first → (expression table first).Accepts body rest →
      AcceptsPrimary table tokens (.locals bound body) rest

/-- The first token of an expression that is no operator application tells its construct, and its
parts follow. -/
theorem accepts_primary :
    (primary table tokens).Accepts e rest ↔ AcceptsPrimary table tokens e rest := by
  constructor
  · intro h
    rw [primary.eq_def] at h
    split at h
    · rename_i value span more
      obtain ⟨rfl, rfl⟩ := accepts_done.1 (accepts_past.1 h)
      exact .number ⟨span, rfl⟩
    · rename_i name span span' more
      simp only [accepts_past, accepts_andThen, accepts_done, exists_prop] at h
      obtain ⟨values, mid, hvalues, rfl, rfl⟩ := h
      exact .call ⟨span, rfl⟩ ⟨span', rfl⟩ hvalues
    · rename_i name span more hopen
      obtain ⟨rfl, rfl⟩ := accepts_done.1 (accepts_past.1 h)
      refine .var ⟨span, rfl⟩ ?_
      rintro more' ⟨span', htakes⟩
      exact hopen span' more' htakes
    · rename_i span more
      simp only [accepts_past, accepts_andThen, accepts_expect, accepts_done, exists_prop] at h
      obtain ⟨inner, closed, hinner, more', hclosed, rfl, rfl⟩ := h
      exact .group ⟨span, rfl⟩ hinner hclosed
    · rename_i span more
      simp only [accepts_past, accepts_andThen, accepts_expect, accepts_done, exists_prop] at h
      obtain ⟨condition, tested, hcondition, first, hthen, consequent, middle, hconsequent, second,
        helse, alternative, last, halternative, rfl, rfl⟩ := h
      exact .conditional ⟨span, rfl⟩ hcondition hthen hconsequent helse halternative
    · rename_i span more
      simp only [accepts_past, accepts_andThen, accepts_expect, accepts_expectName, accepts_done,
        exists_prop] at h
      obtain ⟨name, named, hname, first, hequals, start, started, hstart, second, hcomma, finish,
        finished, hfinish, step, stepped, hstep, third, hin, body, last, hbody, rfl, rfl⟩ := h
      exact .loop ⟨span, rfl⟩ hname hequals hstart hcomma hfinish hstep hin hbody
    · rename_i span more
      simp only [accepts_past, accepts_andThen, accepts_expect, accepts_done, exists_prop] at h
      obtain ⟨bound, mid, hbound, first, hin, body, last, hbody, rfl, rfl⟩ := h
      exact .locals ⟨span, rfl⟩ hbound hin hbody
    · exact (accepts_unexpected.1 h).elim
  · intro h
    cases h with
    | number htakes =>
      obtain ⟨span, rfl⟩ := htakes
      rw [primary]
      exact accepts_past.2 (accepts_done.2 ⟨rfl, rfl⟩)
    | var htakes hopen =>
      obtain ⟨span, rfl⟩ := htakes
      rw [primary]
      · exact accepts_past.2 (accepts_done.2 ⟨rfl, rfl⟩)
      · rintro span' more rfl
        exact hopen more ⟨span', rfl⟩
    | call htakes hopen hvalues =>
      obtain ⟨span, rfl⟩ := htakes
      obtain ⟨span', rfl⟩ := hopen
      rw [primary]
      simp only [accepts_past, accepts_andThen, accepts_done, exists_prop]
      exact ⟨_, _, hvalues, rfl, rfl⟩
    | group htakes hinner hclosed =>
      obtain ⟨span, rfl⟩ := htakes
      rw [primary]
      simp only [accepts_past, accepts_andThen, accepts_expect, accepts_done, exists_prop]
      exact ⟨_, _, hinner, _, hclosed, rfl, rfl⟩
    | conditional htakes hcondition hthen hconsequent helse halternative =>
      obtain ⟨span, rfl⟩ := htakes
      rw [primary]
      simp only [accepts_past, accepts_andThen, accepts_expect, accepts_done, exists_prop]
      exact ⟨_, _, hcondition, _, hthen, _, _, hconsequent, _, helse, _, _, halternative, rfl, rfl⟩
    | loop htakes hname hequals hstart hcomma hfinish hstep hin hbody =>
      obtain ⟨span, rfl⟩ := htakes
      rw [primary]
      simp only [accepts_past, accepts_andThen, accepts_expect, accepts_expectName, accepts_done,
        exists_prop]
      exact ⟨_, _, hname, _, hequals, _, _, hstart, _, hcomma, _, _, hfinish, _, _, hstep, _, hin, _,
        _, hbody, rfl, rfl⟩
    | locals htakes hbound hin hbody =>
      obtain ⟨span, rfl⟩ := htakes
      rw [primary]
      simp only [accepts_past, accepts_andThen, accepts_expect, accepts_done, exists_prop]
      exact ⟨_, _, hbound, _, hin, _, _, hbody, rfl, rfl⟩

/-- Arguments may be missing. -/
theorem accepts_arguments {values : List Expr} : (arguments table tokens).Accepts values rest ↔
    Takes (.symbol ')') tokens rest ∧ values = [] ∨
      (∀ more, ¬ Takes (.symbol ')') tokens more) ∧
        (operands table tokens).Accepts values rest := by
  rw [arguments.eq_def]
  split
  · rename_i span more
    rw [accepts_past, accepts_done]
    constructor
    · rintro ⟨rfl, rfl⟩
      exact .inl ⟨⟨span, rfl⟩, rfl⟩
    · rintro (⟨⟨span', htakes⟩, rfl⟩ | ⟨hnone, -⟩)
      · cases htakes
        exact ⟨rfl, rfl⟩
      · exact (hnone more ⟨span, rfl⟩).elim
  · rename_i hclosed
    have hnone (more : List Lexeme) : ¬ Takes (.symbol ')') tokens more := by
      rintro ⟨span, htakes⟩
      exact hclosed span more htakes
    refine ⟨fun h => .inr ⟨hnone, h⟩, ?_⟩
    rintro (⟨htakes, -⟩ | ⟨-, h⟩)
    · exact (hnone rest htakes).elim
    · exact h

/-- Arguments are separated by commas. -/
theorem accepts_operands {values : List Expr} : (operands table tokens).Accepts values rest ↔
    ∃ value mid, (expression table tokens).Accepts value mid ∧
      (Takes (.symbol ')') mid rest ∧ values = [value] ∨
        ∃ more later, Takes (.symbol ',') mid more ∧ (operands table more).Accepts later rest ∧
          values = value :: later) := by
  rw [operands]
  simp only [accepts_andThen, accepts_ifNext, accepts_expect, accepts_map, accepts_done, exists_prop]
  refine exists_congr fun value => exists_congr fun mid => and_congr_right fun _ => ?_
  constructor
  · rintro (⟨more, hclosed, rfl, rfl⟩ | ⟨-, more, hcomma, later, hlater, rfl⟩)
    · exact .inl ⟨hclosed, rfl⟩
    · exact .inr ⟨more, later, hcomma, hlater, rfl⟩
  · rintro (⟨hclosed, rfl⟩ | ⟨more, later, hcomma, hlater, rfl⟩)
    · exact .inl ⟨rest, hclosed, rfl, rfl⟩
    · refine .inr ⟨fun more' hclosed => ?_, more, hcomma, later, hlater, rfl⟩
      cases (hclosed.unique hcomma).1

/-- An optional part is there exactly if its mark is. -/
theorem accepts_optional {mark : Char} {part : Option Expr} :
    (optional table mark tokens).Accepts part rest ↔
      (∃ more e, Takes (.symbol mark) tokens more ∧ (expression table more).Accepts e rest ∧
        part = some e) ∨
      (∀ more, ¬ Takes (.symbol mark) tokens more) ∧ part = none ∧ rest = tokens := by
  rw [optional]
  simp only [accepts_ifNext, accepts_map, accepts_done, exists_prop]
  refine or_congr (exists_congr fun more => ?_) Iff.rfl
  constructor
  · rintro ⟨htakes, e, he, rfl⟩
    exact ⟨e, htakes, he, rfl⟩
  · rintro ⟨e, htakes, he, rfl⟩
    exact ⟨htakes, e, he, rfl⟩

/-- Local variables are separated by commas. -/
theorem accepts_bindings {bound : List (String × Option Expr)} :
    (bindings table tokens).Accepts bound rest ↔
      ∃ name named value mid, Takes (.identifier name) tokens named ∧
        (optional table '=' named).Accepts value mid ∧
        ((∀ more, ¬ Takes (.symbol ',') mid more) ∧ bound = [(name, value)] ∧ rest = mid ∨
          ∃ more later, Takes (.symbol ',') mid more ∧ (bindings table more).Accepts later rest ∧
            bound = (name, value) :: later) := by
  rw [bindings]
  simp only [accepts_expectName, accepts_andThen, accepts_ifNext, accepts_map, accepts_done,
    exists_prop]
  constructor
  · rintro ⟨name, named, hname, value, mid, hvalue,
      ⟨more, hcomma, later, hlater, rfl⟩ | ⟨hnone, rfl, rfl⟩⟩
    · exact ⟨name, named, value, mid, hname, hvalue, .inr ⟨more, later, hcomma, hlater, rfl⟩⟩
    · exact ⟨name, named, value, _, hname, hvalue, .inl ⟨hnone, rfl, rfl⟩⟩
  · rintro ⟨name, named, value, mid, hname, hvalue,
      ⟨hnone, rfl, rfl⟩ | ⟨more, later, hcomma, hlater, rfl⟩⟩
    · exact ⟨name, named, hname, value, _, hvalue, .inr ⟨hnone, rfl, rfl⟩⟩
    · exact ⟨name, named, hname, value, mid, hvalue, .inl ⟨more, hcomma, later, hlater, rfl⟩⟩

end Kaleidoscope.Parser
