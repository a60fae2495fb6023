import Kaleidoscope.Proofs.Parser.Soundness
import Kaleidoscope.Proofs.Parser.Statements
import Kaleidoscope.Proofs.Syntax.Parentheses

/-!
# Statements as they are written

A sentence is to a statement what a phrase is to an expression: it says which tokens are written,
and which of them stand as operators. Whatever is accepted as a statement was written as a sentence
that means it.
-/

namespace Kaleidoscope

/-- Written signatures. The one of a binary operator may state a precedence. -/
inductive Heading where
  | plain (name : String) (parameters : List String)
  | unary (operator : Char) (parameters : List String)
  | binary (operator : Char) (stated : Option Float) (parameters : List String)

/-- Written statements. -/
inductive Sentence where
  | definition (heading : Heading) (body : Phrase)
  | declaration (heading : Heading)
  | evaluation (body : Phrase)

namespace Heading

/-- The tokens of parameters, in their parentheses. -/
def parameterMarks (parameters : List String) : List Mark :=
  .plain (.symbol '(') ::
    (parameters.map (fun name => .plain (.identifier name)) ++ [.plain (.symbol ')')])

/-- The tokens of a signature as they stand in it. -/
def marks : Heading → List Mark
  | plain name parameters => .plain (.identifier name) :: parameterMarks parameters
  | unary operator parameters =>
    .plain (.keyword .unaryKeyword) :: .operator operator :: parameterMarks parameters
  | binary operator stated parameters =>
    .plain (.keyword .binaryKeyword) :: .operator operator ::
      (stated.toList.map (fun value => .plain (.number value)) ++ parameterMarks parameters)

/-- The signature that is meant. -/
def prototype : Heading → Prototype
  | plain name parameters => ⟨name, parameters, .plain⟩
  | unary operator parameters => ⟨Prototype.unaryName operator, parameters, .unary⟩
  | binary operator stated parameters => ⟨Prototype.binaryName operator, parameters,
      .binary ((stated.map Parser.wholePart).getD OperatorTable.standard)⟩

/-- The operator may be one. -/
def WellFormed : Heading → Prop
  | plain .. => True
  | unary operator _ | binary operator _ _ => Token.isOperatorChar operator

end Heading

namespace Sentence

/-- The tokens of a statement as they stand in it. -/
def marks : Sentence → List Mark
  | definition heading body => .plain (.keyword .defKeyword) :: (heading.marks ++ body.marks)
  | declaration heading => .plain (.keyword .externKeyword) :: heading.marks
  | evaluation body => body.marks

/-- The statement that is meant. -/
def statement : Sentence → Statement
  | definition heading body => .definition ⟨heading.prototype, body.erase⟩
  | declaration heading => .declaration heading.prototype
  | evaluation body => .evaluation body.erase

/-- The sentence follows the grammar, with the operators of the table. -/
def WellFormed (table : OperatorTable) : Sentence → Prop
  | definition heading body => heading.WellFormed ∧ Parser.WellFormed table body
  | declaration heading => heading.WellFormed
  | evaluation body => Parser.WellFormed table body

end Sentence

section

variable {P : Char → Prop}

/-- The parentheses of parameters are balanced. -/
theorem Heading.orderly_parameterMarks (parameters : List String) :
    Mark.Orderly P (parameterMarks parameters) := by
  have hnames : Mark.Orderly P (parameters.map fun name => .plain (.identifier name)) := by
    induction parameters with
    | nil => exact Mark.orderly_nil
    | cons name rest ih => exact ih.identifier name
  exact hnames.parenthesized

/-- The parentheses of a signature are balanced apart from its operator. -/
theorem Heading.WellFormed.orderly {heading : Heading} (h : heading.WellFormed) :
    Mark.Orderly (fun symbol => Token.isOperatorChar symbol) heading.marks := by
  cases heading with
  | plain name parameters => exact (orderly_parameterMarks parameters).identifier name
  | unary operator parameters => exact ((orderly_parameterMarks parameters).operator h).keyword _
  | binary operator stated parameters =>
    have hparameters := orderly_parameterMarks (P := fun symbol => Token.isOperatorChar symbol) parameters
    cases stated with
    | none => exact (hparameters.operator h).keyword _
    | some value => exact ((hparameters.number value).operator h).keyword _

/-- The parentheses of a phrase are balanced apart from its operators. -/
theorem Parser.WellFormed.orderly {table : OperatorTable} {p : Phrase} (h : Parser.WellFormed table p)
    (htable : ∀ symbol, (table.lookup symbol).isSome → Token.isOperatorChar symbol) :
    Mark.Orderly (fun symbol => Token.isOperatorChar symbol) p.marks := by
  refine Phrase.Every.orderly (h.mono fun p hp => ?_)
  cases p with
  | unary => exact hp.1.1
  | binary operator _ _ => exact htable operator hp.1
  | _ => trivial

/-- The parentheses of a sentence are balanced, apart from those that are operators in it. -/
theorem Sentence.WellFormed.orderly {table : OperatorTable} {s : Sentence} (h : s.WellFormed table)
    (htable : ∀ symbol, (table.lookup symbol).isSome → Token.isOperatorChar symbol) :
    Mark.Orderly (fun symbol => Token.isOperatorChar symbol) s.marks := by
  cases s with
  | definition heading body => exact (h.1.orderly.append (h.2.orderly htable)).keyword _
  | declaration heading => exact (Heading.WellFormed.orderly h).keyword _
  | evaluation body => exact Parser.WellFormed.orderly h htable

end

namespace Parser

open Reading

variable {table : OperatorTable} {tokens rest : List Lexeme} {size : Nat}

/-- The names that are read are the identifiers that come. -/
theorem names_sound {found : List String} (h : (names tokens).Accepts found rest) :
    Spells tokens (found.map Token.identifier) rest := by
  induction tokens generalizing found with
  | nil =>
    obtain ⟨rfl, rfl⟩ := accepts_done.1 h
    exact spells_nil.2 rfl
  | cons first more ih =>
    obtain ⟨token, span⟩ := first
    cases token with
    | identifier name =>
      rw [names, accepts_past, accepts_map] at h
      obtain ⟨later, hlater, rfl⟩ := h
      exact spells_cons.2 ⟨more, ⟨span, rfl⟩, ih hlater⟩
    | _ =>
      obtain ⟨rfl, rfl⟩ := accepts_done.1 h
      exact spells_nil.2 rfl

/-- Parameters were written in parentheses. -/
theorem parameters_sound {found : List String} (h : (parameters tokens).Accepts found rest) :
    Spells tokens ((Heading.parameterMarks found).map Mark.token) rest := by
  rw [parameters, accepts_expect] at h
  obtain ⟨more, hopen, h⟩ := h
  rw [accepts_andThen] at h
  obtain ⟨names', mid, hnames, h⟩ := h
  rw [accepts_expect] at h
  obtain ⟨closed, hclose, h⟩ := h
  obtain ⟨rfl, rfl⟩ := accepts_done.1 h
  rw [Heading.parameterMarks, List.map_cons, List.map_append, List.map_map]
  exact spells_cons.2 ⟨more, hopen, spells_append.2 ⟨mid, names_sound hnames,
    spells_singleton.2 hclose⟩⟩

/-- A signature was written as one. -/
theorem heading_sound {p : Prototype} (h : (prototype tokens).Accepts p rest) :
    ∃ heading : Heading, heading.WellFormed ∧ heading.prototype = p ∧
      Spells tokens (heading.marks.map Mark.token) rest := by
  cases acceptsPrototype h with
  | @plain name _ found _ hname hfound =>
    exact ⟨.plain name found, trivial, rfl, spells_cons.2 ⟨_, hname, parameters_sound hfound⟩⟩
  | @unary _ operator _ found _ hword hsymbol hvisible hfound _ =>
    exact ⟨.unary operator found, hvisible, rfl,
      spells_cons.2 ⟨_, hword, spells_cons.2 ⟨_, hsymbol, parameters_sound hfound⟩⟩⟩
  | @binary _ operator _ n _ found _ hword hsymbol hvisible _ hprecedence hfound _ =>
    rcases accepts_precedence.1 hprecedence with ⟨value, hnumber, hvalue⟩ | ⟨-, rfl, rfl⟩
    · obtain ⟨rfl, -⟩ := precedence?_eq_some hvalue
      exact ⟨.binary operator (some value) found, hvisible, rfl, spells_cons.2 ⟨_, hword,
        spells_cons.2 ⟨_, hsymbol, spells_cons.2 ⟨_, hnumber, parameters_sound hfound⟩⟩⟩⟩
    · exact ⟨.binary operator none found, hvisible, rfl, spells_cons.2 ⟨_, hword,
        spells_cons.2 ⟨_, hsymbol, parameters_sound hfound⟩⟩⟩

/-- An expression was written as a phrase. -/
theorem phrase_sound {e : Expr} (h : (expression table tokens).Accepts e rest) :
    ∃ p : Phrase, WellFormed table p ∧ p.erase = e ∧ Spells tokens (p.marks.map Mark.token) rest := by
  obtain ⟨p, ⟨hp, herase, hspells⟩, -⟩ := soundBelow table _ (Nat.lt_succ_self _) h
  exact ⟨p, hp, herase, p.map_token_marks ▸ hspells⟩

/-- A statement was written as a sentence. -/
theorem AcceptsStatement.exists_sentence {found : Statement}
    (h : AcceptsStatement table tokens found rest) :
    ∃ s : Sentence, s.WellFormed table ∧ s.statement = found ∧
      Spells tokens (s.marks.map Mark.token) rest := by
  cases h with
  | definition hword hprototype hbody =>
    obtain ⟨heading, hheading, rfl, hspells⟩ := heading_sound hprototype
    obtain ⟨body, hp, rfl, hbodySpells⟩ := phrase_sound hbody
    refine ⟨.definition heading body, ⟨hheading, hp⟩, rfl, spells_cons.2 ⟨_, hword, ?_⟩⟩
    rw [List.map_append]
    exact spells_append.2 ⟨_, hspells, hbodySpells⟩
  | declaration hword hprototype =>
    obtain ⟨heading, hheading, rfl, hspells⟩ := heading_sound hprototype
    exact ⟨.declaration heading, hheading, rfl, spells_cons.2 ⟨_, hword, hspells⟩⟩
  | evaluation _ hbody =>
    obtain ⟨body, hp, rfl, hspells⟩ := phrase_sound hbody
    exact ⟨.evaluation body, hp, rfl, hspells⟩

/-- The next statement is what its tokens say, and reading goes on behind the token that follows
them. -/
theorem exists_sentence_of_next? {progress : Progress tokens}
    (h : next? table size tokens = some progress) {found : Located Statement}
    (hfound : progress.statement = .ok found) :
    ∃ (s : Sentence) (rest : List Lexeme), s.WellFormed table ∧ s.statement = found.value ∧
      Spells (fromNext tokens) (s.marks.map Mark.token) rest ∧ progress.rest = rest.drop 1 := by
  rw [next?] at h
  split at h
  · cases h
  · split at h
    · rename_i value rest suffix hwhole
      cases h
      cases hfound
      obtain ⟨s, hs, hstatement, hspells⟩ :=
        AcceptsStatement.exists_sentence (acceptsStatement ⟨suffix, hwhole⟩)
      exact ⟨s, rest, hs, hstatement, hspells, rfl⟩
    · cases h
      cases hfound

end Parser

end Kaleidoscope
