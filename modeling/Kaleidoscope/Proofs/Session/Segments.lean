import Kaleidoscope.Proofs.Parser.Segments
import Kaleidoscope.Proofs.Session.Splitting

/-!
# What the segments of a source lead to

The segments of a source are those that its statements take up. In a session the operators change
from one statement to the next, but the segments still cover the source, and each of them leads to
one outcome or to one message.
-/

namespace Kaleidoscope

open Kaleidoscope.Parser (Segment Tiles verdicts)
open Source (size)

namespace Report

/-- What a report says: the outcome of a statement, or a message about it. -/
def said (report : Located Report) : Outcome ⊕ Diagnostic :=
  match report.value.result with
  | .ok outcome => .inl outcome
  | .error e => .inr ⟨e.message, report.span⟩

/-- Outcomes are what reports say on success. -/
theorem outcomes_eq_said (reports : List (Located Report)) :
    outcomes reports = (reports.map said).filterMap Sum.getLeft? := by
  rw [outcomes, List.filterMap_map]
  congr 1
  funext report
  obtain ⟨⟨result, natives, listing⟩, span⟩ := report
  cases result <;> rfl

/-- Diagnostics are what reports say on failure. -/
theorem diagnostics_eq_said (reports : List (Located Report)) :
    diagnostics reports = (reports.map said).filterMap Sum.getRight? := by
  rw [diagnostics, List.filterMap_map]
  congr 1
  funext report
  obtain ⟨⟨result, natives, listing⟩, span⟩ := report
  cases result <;> rfl

end Report

namespace Session

variable {s last : Session} {fuel bytes : Nat} {tokens : List Lexeme}

/-- What a segment can lead to. A message about an accepted statement is placed at the whole
statement. -/
inductive LeadsTo : Segment → Outcome ⊕ Diagnostic → Prop where
  | rejected {tokens : List Lexeme} {error : Located ParseError} :
      LeadsTo ⟨tokens, .error error⟩ (.inr ⟨error.value.message, error.span⟩)
  | succeeded {tokens : List Lexeme} {found : Located Statement} {outcome : Outcome} :
      LeadsTo ⟨tokens, .ok found⟩ (.inl outcome)
  | failed {tokens : List Lexeme} {found : Located Statement} {error : StatementError} :
      LeadsTo ⟨tokens, .ok found⟩ (.inr ⟨error.message, found.span⟩)

/-- An accepted statement leads to what its report says. -/
theorem leadsTo_said (tokens : List Lexeme) (found : Located Statement) (report : Report) :
    LeadsTo ⟨tokens, .ok found⟩ (Report.said ⟨report, found.span⟩) := by
  obtain ⟨result, natives, listing⟩ := report
  cases result with
  | ok outcome => exact .succeeded
  | error error => exact .failed

/-- The statements that a session runs take up segments that cover the tokens, and there is one
report for each segment. -/
theorem Sound.exists_tiles (h : s.Sound) (hwords : Lexer.NamesAreWords tokens)
    {reports : List (Located Report)}
    (hrun : s.statements fuel bytes tokens = some (reports, last)) :
    ∃ segments, Tiles bytes tokens segments ∧
      List.Forall₂ (fun segment report => LeadsTo segment (Report.said report)) segments reports := by
  refine Sound.induction (motive := fun s tokens => ∀ reports,
    s.statements fuel bytes tokens = some (reports, last) → ∃ segments, Tiles bytes tokens segments ∧
      List.Forall₂ (fun segment report => LeadsTo segment (Report.said report)) segments reports)
    fuel bytes ?finished ?rejected ?executed h hwords reports hrun
  case finished =>
    intro s tokens hnone reports hrun
    rw [statements_eq, Parser.nextStatement?_eq_none hnone] at hrun
    cases hrun
    exact ⟨[], .finished (Parser.endsStatement_of_fromNext_eq_nil hnone), .nil⟩
  case rejected =>
    intro s tokens error rest h _ hnext ih reports hrun
    rw [statements_eq, hnext] at hrun
    obtain ⟨⟨more, last'⟩, hlater, heq⟩ := Option.map_eq_some_iff.1 hrun
    cases heq
    obtain ⟨segments, htiles, hleads⟩ := ih more hlater
    obtain ⟨gap, segment, rfl, hgap, hsegment⟩ := Parser.exists_segment h.lookup_semicolon hnext
    exact ⟨⟨segment, .error error⟩ :: segments, .next hgap hsegment htiles, .cons .rejected hleads⟩
  case executed =>
    intro s tokens found rest h _ hnext ih reports hrun
    rw [statements_eq, hnext] at hrun
    obtain ⟨⟨report, next⟩, hstatement, hrun⟩ := Option.bind_eq_some_iff.1 hrun
    obtain ⟨⟨more, last'⟩, hlater, heq⟩ := Option.map_eq_some_iff.1 hrun
    cases heq
    obtain ⟨segments, htiles, hleads⟩ := (ih report next hstatement).2 more hlater
    obtain ⟨gap, segment, rfl, hgap, hsegment⟩ := Parser.exists_segment h.lookup_semicolon hnext
    exact ⟨⟨segment, .ok found⟩ :: segments, .next hgap hsegment htiles,
      .cons (leadsTo_said segment found report) hleads⟩

end Session

end Kaleidoscope
