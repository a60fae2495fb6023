import Kaleidoscope.Proofs.Session.Splitting
import Kaleidoscope.Proofs.Token.Positions

/-!
# Where diagnostics are placed

A rejected statement is reported at the token that does not fit, which may lie as far behind as the
start of the next statement, and a statement that fails later is reported as a whole. Still no
report starts before the statement that it is about, and none starts behind the statement after it.
So the diagnostics of a source come in the order of their places, and each of them covers whole
characters of it.
-/

namespace Kaleidoscope

open Lexer (InOrder)
open Source (Delimits isBoundary place size)

namespace Parser

variable {table : OperatorTable} {text : List Char} {tokens rest : List Lexeme}

/-- The part of the source at which a statement, or its rejection, is reported. -/
def reported : Except (Located ParseError) (Located Statement) → Span
  | .error error => error.span
  | .ok found => found.span

/-- What a statement is reported at lies in the text, not before its first token and not behind the
first token of what follows. -/
theorem delimits_reported (h : InOrder text tokens)
    {found : Except (Located ParseError) (Located Statement)}
    (hnext : nextStatement? table (size text) tokens = some (found, rest)) :
    Delimits text (reported found) ∧
      (nextSpan (size text) tokens).start ≤ (reported found).start ∧
      (reported found).start ≤ (nextSpan (size text) rest).start := by
  have hstart : fromNext tokens <:+ tokens := List.dropWhile_suffix _
  have hbehind := h.suffix hstart
  have hempty := nextSpan_start_le h hstart
  by_cases hne : fromNext tokens = []
  · rw [nextStatement?_eq_none hne] at hnext
    cases hnext
  · rw [nextStatement?_eq_some hne] at hnext
    obtain hconclude := Option.some.inj hnext
    cases hwhole : whole table (fromNext tokens) with
    | accepted statement left suffix =>
      rw [hwhole] at hconclude
      cases hconclude
      -- A statement has a token, since it begins with no semicolon and is followed by one.
      have hlength : left.length < (fromNext tokens).length := by
        refine Nat.lt_of_le_of_ne suffix.length_le fun heq => ?_
        obtain ⟨first, more, hcons⟩ := List.exists_cons_of_ne_nil hne
        have hleft : left = first :: more := (suffix.eq_of_length heq).trans hcons
        have hends := endsStatement_of_accepts ⟨suffix, hwhole⟩ first (by rw [hleft]; rfl)
        rw [endsStatement_of_fromNext hcons] at hends
        cases hends
      obtain ⟨hdelimits, heq⟩ := delimits_spanUpTo hbehind hlength
      refine ⟨hdelimits, heq ▸ hempty, heq ▸ ?_⟩
      exact nextSpan_start_le hbehind ((List.drop_suffix 1 left).trans suffix)
    | rejected error left suffix =>
      rw [hwhole] at hconclude
      cases hconclude
      have hleft := hbehind.suffix suffix
      refine ⟨delimits_nextSpan hleft, Nat.le_trans hempty (nextSpan_start_le hbehind suffix), ?_⟩
      exact nextSpan_start_le hleft (resynchronize_suffix left)

end Parser

namespace Session

/-- The session reports this much on some tokens before it is looked at. It need not have come to
the end of them, and need not ever do. -/
inductive HasReported (bytes : Nat) : Session → List Lexeme → List (Located Report) → Prop where
  | nothing {s : Session} {tokens : List Lexeme} : HasReported bytes s tokens []
  | rejected {s : Session} {tokens rest : List Lexeme} {error : Located ParseError}
      {later : List (Located Report)} :
      Parser.nextStatement? s.compiler.operators bytes tokens = some (.error error, rest) →
      HasReported bytes s rest later →
      HasReported bytes s tokens
        (⟨withoutRun (.error (.parse error.value)) "", error.span⟩ :: later)
  | executed {s next : Session} {tokens rest : List Lexeme} {found : Located Statement} {fuel : Nat}
      {report : Report} {later : List (Located Report)} :
      Parser.nextStatement? s.compiler.operators bytes tokens = some (.ok found, rest) →
      s.statement fuel found.value = some (report, next) → HasReported bytes next rest later →
      HasReported bytes s tokens (⟨report, found.span⟩ :: later)

variable {s last : Session} {fuel bytes : Nat} {text : List Char} {tokens rest : List Lexeme}
  {reports : List (Located Report)}

/-- What is there when all tokens have been run has been reported. -/
theorem hasReported_of_statements (hrun : s.statements fuel bytes tokens = some (reports, last)) :
    HasReported bytes s tokens reports := by
  refine statements_induction (motive := fun s tokens reports _ => HasReported bytes s tokens reports)
    ?finished ?rejected ?executed hrun
  case finished => exact fun _ _ _ => .nothing
  case rejected => exact fun _ _ _ _ _ _ hnext ih => .rejected hnext ih
  case executed => exact fun _ _ _ _ _ _ _ _ hnext hstatement ih => .executed hnext hstatement ih

/-- Reports are at parts of the text, from the next token on, and each starts no earlier than those
before. -/
structure Placed (text : List Char) (tokens : List Lexeme) (reports : List (Located Report)) :
    Prop where
  delimits : ∀ report ∈ reports, Delimits text report.span
  start_le : ∀ report ∈ reports, (Parser.nextSpan (size text) tokens).start ≤ report.span.start
  ascending : reports.Pairwise fun a b => a.span.start ≤ b.span.start

/-- One more report in front is placed well if it is on the next statement. -/
theorem Placed.cons (h : Placed text rest reports) (hin : InOrder text tokens)
    {table : OperatorTable} {found : Except (Located ParseError) (Located Statement)}
    (hnext : Parser.nextStatement? table (size text) tokens = some (found, rest)) (report : Report) :
    Placed text tokens (⟨report, Parser.reported found⟩ :: reports) := by
  obtain ⟨hdelimits, hfront, hbehind⟩ := Parser.delimits_reported hin hnext
  have hlater (later) (hmem : later ∈ reports) := Nat.le_trans hbehind (h.start_le later hmem)
  exact ⟨List.forall_mem_cons.2 ⟨hdelimits, h.delimits⟩,
    List.forall_mem_cons.2 ⟨hfront, fun later hmem => Nat.le_trans hfront (hlater later hmem)⟩,
    List.pairwise_cons.2 ⟨hlater, h.ascending⟩⟩

/-- Whatever is reported is placed well. -/
theorem HasReported.placed (h : HasReported (size text) s tokens reports) (hin : InOrder text tokens) :
    Placed text tokens reports := by
  induction h with
  | nothing => exact ⟨List.forall_mem_nil _, List.forall_mem_nil _, .nil⟩
  | rejected hnext _ ih =>
    have hrest := hin.suffix (Parser.nextStatement?_rest hnext).1
    exact (ih hrest).cons hin hnext _
  | executed hnext _ _ ih =>
    have hrest := hin.suffix (Parser.nextStatement?_rest hnext).1
    exact (ih hrest).cons hin hnext _

/-- A message is placed where a report is. -/
theorem exists_report {d : Diagnostic} (hmem : d ∈ Report.diagnostics reports) :
    ∃ report ∈ reports, report.span = d.span := by
  obtain ⟨report, hreport, hsome⟩ := List.mem_filterMap.1 hmem
  refine ⟨report, hreport, ?_⟩
  split at hsome
  · cases hsome
    rfl
  · cases hsome

/-- Messages about a text that lie in it, begin and end between its characters, and come in the
order of their places. -/
structure Legible (text : List Char) (diagnostics : List Diagnostic) : Prop where
  inside : ∀ d ∈ diagnostics, d.span.start ≤ d.span.stop ∧ d.span.stop ≤ size text
  between : ∀ d ∈ diagnostics, isBoundary text d.span.start ∧ isBoundary text d.span.stop
  ordered : diagnostics.Pairwise fun a b => place text a.span.start ≤ place text b.span.start

/-- Reports that are placed in the text give legible messages. -/
theorem Placed.legible (h : Placed text tokens reports) :
    Legible text (Report.diagnostics reports) where
  inside d hmem := by
    obtain ⟨report, hreport, hspan⟩ := exists_report hmem
    have hdelimits := hspan ▸ h.delimits report hreport
    exact ⟨hdelimits.le, hdelimits.stop.le_size⟩
  between d hmem := by
    obtain ⟨report, hreport, hspan⟩ := exists_report hmem
    have hdelimits := hspan ▸ h.delimits report hreport
    exact ⟨hdelimits.start.isBoundary, hdelimits.stop.isBoundary⟩
  ordered := by
    refine h.ascending.filterMap _ fun a b hle d hd d' hd' => Source.place_mono text ?_
    split at hd
    · split at hd'
      · cases hd
        cases hd'
        exact hle
      · cases hd'
    · cases hd

/-- The diagnostics of a source, as far as it has been run, have spans in it that begin and end
between characters, and come in the order of the lines and columns that they are shown with. -/
theorem diagnostics_legible (s : Session) (text : String) :
    (∀ reports, HasReported (size text.toList) s (Lexer.tokens text) reports →
      Legible text.toList (Report.diagnostics reports)) ∧
    ∀ fuel reports last, s.run fuel text = some (reports, last) →
      Legible text.toList (Report.diagnostics reports) := by
  have hin := Lexer.inOrder_tokens text
  exact ⟨fun reports h => (h.placed hin).legible,
    fun fuel reports last hrun => ((hasReported_of_statements hrun).placed hin).legible⟩

/-- An operator among parameters, an unknown name, and a definition at which the source ends. -/
theorem rejected_legible :
    let text := "# é\ndef f(x x +\ndef g(x) x + y # é\n;def"
    ∃ reports last, (Session.start .standard .standard).run 100 text = some (reports, last) ∧
      (Report.diagnostics reports).map (fun d => Source.place text.toList d.span.start) =
        [⟨2, 11⟩, ⟨3, 1⟩, ⟨4, 5⟩] ∧
      Legible text.toList (Report.diagnostics reports) := by
  intro text
  have hplaces : ((Session.start .standard .standard).run 100 text).map (fun result =>
      (Report.diagnostics result.1).map fun d => Source.place text.toList d.span.start) =
        some [⟨2, 11⟩, ⟨3, 1⟩, ⟨4, 5⟩] := by decide +kernel
  obtain ⟨⟨reports, last⟩, hrun, hreports⟩ := Option.map_eq_some_iff.1 hplaces
  exact ⟨reports, last, hrun, hreports,
    (diagnostics_legible (.start .standard .standard) text).2 100 reports last hrun⟩

end Session

end Kaleidoscope
