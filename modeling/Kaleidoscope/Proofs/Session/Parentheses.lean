import Kaleidoscope.Proofs.Parser.Readers
import Kaleidoscope.Proofs.Parser.Sentences
import Kaleidoscope.Proofs.Session.Consistency

/-!
# Balanced statements

An opening parenthesis never names an operator, but a closing one may: where it stands as an
operator nothing has to be open. All other parentheses of a statement that is accepted are balanced,
whatever operators the session has by then.
-/

namespace Kaleidoscope.Session

open Kaleidoscope.Parser (Progress exists_read fromNext next?)

variable {options : Options} {machine : Machine} {m : Moment} {size : Nat} {tokens : List Lexeme}

/-- The operators of a session are symbols that may name one. -/
theorem Reachable.isOperatorChar (h : Reachable options machine m) (symbol : Char)
    (hlookup : (m.session.compiler.operators.lookup symbol).isSome) : Token.isOperatorChar symbol := by
  cases hbuiltin : OperatorTable.isBuiltin symbol with
  | true =>
    rcases OperatorTable.eq_of_isBuiltin hbuiltin with rfl | rfl | rfl | rfl | rfl
    all_goals decide
  | false =>
    obtain ⟨n, hn⟩ := Option.isSome_iff_exists.1 hlookup
    rw [h.consistent.operators.defined symbol hbuiltin] at hn
    exact (h.consistent.operators.implemented symbol n hbuiltin hn).visible

/-- The parentheses of an accepted statement are balanced, less the closing ones that stand as
operators: the statement was written as a sentence that means it, an opening parenthesis is no
operator in it, and its other tokens are balanced. So all of them are balanced if no closing
parenthesis is an operator, either. -/
theorem Reachable.parentheses_balanced (h : Reachable options machine m) {progress : Progress tokens}
    (hnext : next? m.session.compiler.operators size tokens = some progress)
    {found : Located Statement} (hfound : progress.statement = .ok found) :
    ∃ (s : Sentence) (rest : List Lexeme), s.WellFormed m.session.compiler.operators ∧
      s.statement = found.value ∧ Spells (fromNext tokens) (s.marks.map Mark.token) rest ∧
      progress.rest = rest.drop 1 ∧
      .operator '(' ∉ s.marks ∧ Token.balancedFrom 0 (s.marks.filterMap Mark.plain?) ∧
      (.operator ')' ∉ s.marks → Token.balancedFrom 0 (s.marks.map Mark.token)) := by
  obtain ⟨s, rest, hs, hstatement, hspells, hrest⟩ := Parser.exists_sentence_of_next? hnext hfound
  have horderly := hs.orderly h.isOperatorChar
  have hopen : .operator '(' ∉ s.marks := fun hmem =>
    absurd (horderly.operators '(' hmem) (by decide)
  have hbalanced := horderly.neutral.balanced
  refine ⟨s, rest, hs, hstatement, hspells, hrest, hopen, hbalanced, fun hclose => ?_⟩
  rw [Mark.balancedFrom_map_token hopen hclose]
  exact hbalanced

/-- What is read in `)f(x)` is the application of an operator to a call. The operator is left out,
and the parentheses of the call are balanced. -/
theorem applied_parenthesis_balanced :
    Reachable .standard .standard (.first .standard .standard) ∧
    ∃ (progress : Progress (Lexer.tokens ")f(x)")) (found : Located Statement),
      next? OperatorTable.seed 5 (Lexer.tokens ")f(x)") = some progress ∧
      progress.statement = .ok found ∧
      ∃ (s : Sentence) (rest : List Lexeme), s.statement = found.value ∧
        Spells (fromNext (Lexer.tokens ")f(x)")) (s.marks.map Mark.token) rest ∧
        Token.balancedFrom 0 (s.marks.filterMap Mark.plain?) := by
  have hfirst : Reachable .standard .standard (.first .standard .standard) := .first
  obtain ⟨progress, found, hnext, hfound, -⟩ :
      ∃ (progress : Progress (Lexer.tokens ")f(x)")) (found : Located Statement),
      next? OperatorTable.seed 5 (Lexer.tokens ")f(x)") = some progress ∧
      progress.statement = .ok found ∧ found.span = ⟨0, 5⟩ ∧ progress.rest.length = 0 :=
    exists_read (by decide +kernel)
  obtain ⟨s, rest, -, hstatement, hspells, -, -, hbalanced, -⟩ :=
    Reachable.parentheses_balanced hfirst hnext hfound
  exact ⟨hfirst, progress, found, hnext, hfound, s, rest, hstatement, hspells, hbalanced⟩

/-- With the operators that a session begins with, all of `)x` is one statement, although it closes
a parenthesis that it does not open. -/
theorem closing_operator_unbalanced :
    Reachable .standard .standard (.first .standard .standard) ∧
    ∃ (progress : Progress (Lexer.tokens ")x")) (found : Located Statement),
      next? (Moment.first .standard .standard).session.compiler.operators 2 (Lexer.tokens ")x") =
        some progress ∧
      progress.statement = .ok found ∧ found.span = ⟨0, 2⟩ ∧ progress.rest.length = 0 ∧
      Token.balancedFrom 0 ((Lexer.tokens ")x").map Lexeme.token) = false := by
  obtain ⟨progress, found, hnext, hfound, hspan, hrest⟩ :
      ∃ (progress : Progress (Lexer.tokens ")x")) (found : Located Statement),
        next? OperatorTable.seed 2 (Lexer.tokens ")x") = some progress ∧
        progress.statement = .ok found ∧ found.span = ⟨0, 2⟩ ∧ progress.rest.length = 0 :=
    exists_read (by decide +kernel)
  exact ⟨.first, progress, found, hnext, hfound, hspan, hrest, by decide +kernel⟩

end Kaleidoscope.Session
