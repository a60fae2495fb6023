import Kaleidoscope.Proofs.Session.Consistency
import Kaleidoscope.Proofs.Token.Splitting

/-!
# Sources that are put together

Running a source that has a semicolon somewhere is running it up to there and then running the rest
in the same session. Only the places of the rest are counted from another beginning. This depends on
the semicolon being no operator, which holds in every session.
-/

namespace Kaleidoscope

open Lexer (NamesAreWords)
open Source (size)

/-- A message about a source that has `k` more bytes in front of it. -/
def Diagnostic.shift (k : Nat) (d : Diagnostic) : Diagnostic := ⟨d.message, d.span.shift k⟩

namespace Report

/-- The reports on a source and those on another one, `k` bytes behind its beginning. -/
def join (k : Nat) (first second : List (Located Report)) : List (Located Report) :=
  first ++ second.map (Located.shift k)

variable (k : Nat) (first second : List (Located Report))

/-- The outcomes of the second source follow those of the first one. -/
theorem outcomes_join : outcomes (join k first second) = outcomes first ++ outcomes second := by
  rw [join, outcomes, List.filterMap_append, List.filterMap_map]
  rfl

/-- The output of the second source follows that of the first one. -/
theorem output_join : output (join k first second) = output first ++ output second := by
  rw [join, output, List.flatMap_append, List.flatMap_map, String.join_append]
  rfl

/-- The messages about the second source follow those about the first one, shifted. -/
theorem diagnostics_join : diagnostics (join k first second) =
    diagnostics first ++ (diagnostics second).map (Diagnostic.shift k) := by
  rw [join, diagnostics, List.filterMap_append, List.filterMap_map, diagnostics, diagnostics,
    List.map_filterMap]
  congr 2
  funext report
  obtain ⟨⟨result, natives, listing⟩, span⟩ := report
  cases result <;> rfl

end Report

namespace Session

variable {s next last : Session} {fuel bytes bytes' : Nat} {tokens rest later : List Lexeme}

/-- Operators and functions of the session belong together. -/
def Sound (s : Session) : Prop := ∃ latest, s.compiler.Consistent latest

/-- The semicolon is no operator. -/
theorem Sound.lookup_semicolon (h : s.Sound) : s.compiler.operators.lookup ';' = none := by
  obtain ⟨latest, h⟩ := h
  have hbuiltin : OperatorTable.isBuiltin ';' = false := by decide
  have hvisible : Token.isOperatorChar ';' = false := by decide
  rw [h.defined ';' hbuiltin]
  cases hlatest : latest ';' with
  | none => rfl
  | some n =>
    have himplemented := (h.implemented ';' n hbuiltin hlatest).visible
    rw [hvisible] at himplemented
    cases himplemented

/-- Running what is left is running the next statement and then what follows it. -/
theorem statements_eq (s : Session) (fuel bytes : Nat) (tokens : List Lexeme) :
    s.statements fuel bytes tokens =
      match Parser.nextStatement? s.compiler.operators bytes tokens with
      | none => some ([], s)
      | some (.error error, rest) => (s.statements fuel bytes rest).map fun (reports, last) =>
          (⟨withoutRun (.error (.parse error.value)) "", error.span⟩ :: reports, last)
      | some (.ok found, rest) => (s.statement fuel found.value).bind fun (report, next) =>
          (next.statements fuel bytes rest).map fun (reports, last) =>
            (⟨report, found.span⟩ :: reports, last) := by
  rw [statements, Parser.nextStatement?]
  cases Parser.next? s.compiler.operators bytes tokens with
  | none => rfl
  | some progress =>
    obtain ⟨found, rest, shorter⟩ := progress
    cases found with
    | error error =>
      simp only [Option.map_some]
      cases s.statements fuel bytes rest <;> rfl
    | ok found =>
      simp only [Option.map_some]
      cases hstatement : s.statement fuel found.value with
      | none => rfl
      | some result =>
        obtain ⟨report, next⟩ := result
        simp only [Option.bind_some]
        cases hlater : next.statements fuel bytes rest with
        | none => simp [hlater]
        | some result => simp [hlater]

/-- Nothing is run where no token is left. -/
theorem statements_nil (s : Session) (fuel bytes : Nat) : s.statements fuel bytes [] = some ([], s) := by
  rw [statements_eq, Parser.nextStatement?_eq_none rfl]

/-- Induction on the statements that a session has run. -/
theorem statements_induction
    {motive : Session → List Lexeme → List (Located Report) → Session → Prop}
    (finished : ∀ s tokens, Parser.nextStatement? s.compiler.operators bytes tokens = none →
      motive s tokens [] s)
    (rejected : ∀ s tokens error rest reports last,
      Parser.nextStatement? s.compiler.operators bytes tokens = some (.error error, rest) →
      motive s rest reports last →
      motive s tokens (⟨withoutRun (.error (.parse error.value)) "", error.span⟩ :: reports) last)
    (executed : ∀ s tokens found rest report next reports last,
      Parser.nextStatement? s.compiler.operators bytes tokens = some (.ok found, rest) →
      s.statement fuel found.value = some (report, next) → motive next rest reports last →
      motive s tokens (⟨report, found.span⟩ :: reports) last)
    {reports : List (Located Report)}
    (hrun : s.statements fuel bytes tokens = some (reports, last)) : motive s tokens reports last := by
  induction hsize : tokens.length using Nat.strongRecOn generalizing s tokens reports with
  | ind size ih =>
    rw [statements_eq] at hrun
    cases hnext : Parser.nextStatement? s.compiler.operators bytes tokens with
    | none =>
      rw [hnext] at hrun
      obtain ⟨rfl, rfl⟩ := Prod.mk.inj (Option.some.inj hrun)
      exact finished s tokens hnext
    | some result =>
      obtain ⟨found, rest⟩ := result
      have hshorter := hsize ▸ (Parser.nextStatement?_rest hnext).2.1
      rw [hnext] at hrun
      cases found with
      | error error =>
        obtain ⟨⟨later, last'⟩, hlater, heq⟩ := Option.map_eq_some_iff.1 hrun
        cases heq
        exact rejected s tokens error rest later last hnext (ih _ hshorter hlater rfl)
      | ok found =>
        obtain ⟨⟨report, next⟩, hstatement, hrun⟩ := Option.bind_eq_some_iff.1 hrun
        obtain ⟨⟨later, last'⟩, hlater, heq⟩ := Option.map_eq_some_iff.1 hrun
        cases heq
        exact executed s tokens found rest report next later last hnext hstatement
          (ih _ hshorter hlater rfl)

/-- A statement that has been read leaves the session sound. -/
theorem Sound.statement (h : s.Sound) (hwords : NamesAreWords tokens) {found : Statement}
    (haccepts : Parser.AcceptsStatement s.compiler.operators tokens found rest) {report : Report}
    (hrun : s.statement fuel found = some (report, next)) : next.Sound := by
  obtain ⟨latest, h⟩ := h
  exact ⟨_, (consistent_statement h hwords haccepts hrun).1⟩

/-- Induction on the statements that a sound session finds in tokens. -/
theorem Sound.induction {motive : Session → List Lexeme → Prop} (fuel bytes : Nat)
    (finished : ∀ s tokens, Parser.fromNext tokens = [] → motive s tokens)
    (rejected : ∀ s tokens error rest, s.Sound → Parser.fromNext tokens ≠ [] →
      Parser.nextStatement? s.compiler.operators bytes tokens = some (.error error, rest) →
      motive s rest → motive s tokens)
    (executed : ∀ s tokens found rest, s.Sound → Parser.fromNext tokens ≠ [] →
      Parser.nextStatement? s.compiler.operators bytes tokens = some (.ok found, rest) →
      (∀ report next, s.statement fuel found.value = some (report, next) →
        next.Sound ∧ motive next rest) → motive s tokens)
    (h : s.Sound) (hwords : NamesAreWords tokens) : motive s tokens := by
  induction hsize : tokens.length using Nat.strongRecOn generalizing s tokens with
  | ind size ih =>
    by_cases hne : Parser.fromNext tokens = []
    · exact finished s tokens hne
    · have hnext : Parser.nextStatement? s.compiler.operators bytes tokens = some _ :=
        Parser.nextStatement?_eq_some hne
      rcases hconclude : Parser.conclude bytes
        (Parser.whole s.compiler.operators (Parser.fromNext tokens)) with ⟨found, rest⟩
      rw [hconclude] at hnext
      obtain ⟨hsuffix, hshorter, haccepts⟩ := Parser.nextStatement?_rest hnext
      have hrest := hwords.suffix hsuffix
      cases found with
      | error error => exact rejected s tokens error rest h hne hnext (ih _ (hsize ▸ hshorter) h hrest rfl)
      | ok found =>
        refine executed s tokens found rest h hne hnext fun report next hrun => ?_
        obtain ⟨left, haccepts⟩ := haccepts found rfl
        have hsound := h.statement (hwords.suffix (List.dropWhile_suffix _)) haccepts hrun
        exact ⟨hsound, ih _ (hsize ▸ hshorter) hsound hrest rfl⟩

/-- Statements leave a session sound. -/
theorem Sound.statements (h : s.Sound) (hwords : NamesAreWords tokens)
    {reports : List (Located Report)}
    (hrun : s.statements fuel bytes tokens = some (reports, last)) : last.Sound := by
  refine Sound.induction (motive := fun s tokens => s.Sound → ∀ reports,
    s.statements fuel bytes tokens = some (reports, last) → last.Sound)
    fuel bytes ?finished ?rejected ?executed h hwords h reports hrun
  case finished =>
    intro s tokens hnone h reports hrun
    rw [statements_eq, Parser.nextStatement?_eq_none hnone] at hrun
    cases hrun
    exact h
  case rejected =>
    intro s tokens error rest _ _ hnext ih h reports hrun
    rw [statements_eq, hnext] at hrun
    obtain ⟨⟨more, last'⟩, hlater, heq⟩ := Option.map_eq_some_iff.1 hrun
    cases heq
    exact ih h _ hlater
  case executed =>
    intro s tokens found rest _ _ hnext ih h reports hrun
    rw [statements_eq, hnext] at hrun
    obtain ⟨⟨report, next⟩, hstatement, hrun⟩ := Option.bind_eq_some_iff.1 hrun
    obtain ⟨⟨more, last'⟩, hlater, heq⟩ := Option.map_eq_some_iff.1 hrun
    cases heq
    obtain ⟨hsound, ih⟩ := ih report next hstatement
    exact ih hsound _ hlater

/-- Behind a semicolon, what follows runs in the session that is left there. -/
theorem statements_append (h : s.Sound) (hwords : NamesAreWords tokens) (hended : Ended tokens)
    (later : List Lexeme) :
    s.statements fuel bytes (tokens ++ later) =
      (s.statements fuel bytes' tokens).bind fun (first, mid) =>
        (mid.statements fuel bytes later).map fun (second, last) => (first ++ second, last) := by
  refine Sound.induction (motive := fun s tokens => Ended tokens →
    s.statements fuel bytes (tokens ++ later) =
      (s.statements fuel bytes' tokens).bind fun (first, mid) =>
        (mid.statements fuel bytes later).map fun (second, last) => (first ++ second, last))
    fuel bytes' ?finished ?rejected ?executed h hwords hended
  case finished =>
    intro s tokens hnone _
    have hlater : Parser.fromNext (tokens ++ later) = Parser.fromNext later := by
      unfold Parser.fromNext at hnone ⊢
      rw [List.dropWhile_append, hnone]
      rfl
    rw [statements_eq, Parser.nextStatement?_congr hlater, ← statements_eq, s.statements_eq fuel bytes',
      Parser.nextStatement?_eq_none hnone]
    simp
  case rejected =>
    intro s tokens error rest h hne hnext ih hended
    have hrest := (Parser.nextStatement?_rest hnext).1
    have happend :=
      Parser.nextStatement?_append h.lookup_semicolon hended hne bytes bytes' later
    rw [hnext] at happend
    rw [statements_eq, happend, s.statements_eq fuel _ tokens, hnext]
    simp only [Option.map_some]
    rw [ih (hended.suffix hrest)]
    cases s.statements fuel bytes' rest with
    | none => rfl
    | some result =>
      obtain ⟨first, mid⟩ := result
      simp only [Option.bind_some, Option.map_some, Option.map_map]
      rfl
  case executed =>
    intro s tokens found rest h hne hnext ih hended
    have hrest := (Parser.nextStatement?_rest hnext).1
    have happend :=
      Parser.nextStatement?_append h.lookup_semicolon hended hne bytes bytes' later
    rw [hnext] at happend
    rw [statements_eq, happend, s.statements_eq fuel _ tokens, hnext]
    simp only [Option.map_some]
    cases hstatement : s.statement fuel found.value with
    | none => rfl
    | some result =>
      obtain ⟨report, next⟩ := result
      simp only [Option.bind_some]
      rw [(ih report next hstatement).2 (hended.suffix hrest)]
      cases next.statements fuel bytes' rest with
      | none => rfl
      | some result =>
        obtain ⟨first, mid⟩ := result
        simp only [Option.bind_some, Option.map_some, Option.map_map]
        rfl

/-- Behind `k` bytes the same happens, and every report is `k` bytes further. -/
theorem statements_map_shift (h : s.Sound) (hwords : NamesAreWords tokens) (k : Nat) :
    s.statements fuel (k + bytes) (tokens.map (Lexeme.shift k)) =
      (s.statements fuel bytes tokens).map fun (reports, last) =>
        (reports.map (Located.shift k), last) := by
  refine Sound.induction (motive := fun s tokens =>
    s.statements fuel (k + bytes) (tokens.map (Lexeme.shift k)) =
      (s.statements fuel bytes tokens).map fun (reports, last) =>
        (reports.map (Located.shift k), last))
    fuel bytes ?finished ?rejected ?executed h hwords
  case finished =>
    intro s tokens hnone
    have hshift : Parser.fromNext (tokens.map (Lexeme.shift k)) = [] := by
      rw [Parser.fromNext_map_shift, hnone]
      rfl
    rw [statements_eq, Parser.nextStatement?_eq_none hshift, statements_eq,
      Parser.nextStatement?_eq_none hnone]
    rfl
  case rejected =>
    intro s tokens error rest h _ hnext ih
    have hshift := Parser.nextStatement?_map_shift h.lookup_semicolon k bytes tokens
    rw [hnext] at hshift
    rw [statements_eq, hshift, s.statements_eq fuel _ tokens, hnext]
    simp only [Option.map_some, Parser.shiftFound]
    rw [ih, Option.map_map, Option.map_map]
    rfl
  case executed =>
    intro s tokens found rest h _ hnext ih
    have hshift := Parser.nextStatement?_map_shift h.lookup_semicolon k bytes tokens
    rw [hnext] at hshift
    rw [statements_eq, hshift, s.statements_eq fuel _ tokens, hnext]
    simp only [Option.map_some, Parser.shiftFound, Located.shift]
    cases hstatement : s.statement fuel found.value with
    | none => rfl
    | some result =>
      obtain ⟨report, next⟩ := result
      simp only [Option.bind_some]
      rw [(ih report next hstatement).2, Option.map_map, Option.map_map]
      rfl

/-- A source that falls into two parts is run part by part, if the first one ends with a
semicolon. -/
theorem Sound.run_append (h : s.Sound) {p q : String}
    (htokens : Lexer.tokens (p ++ q) =
      Lexer.tokens p ++ (Lexer.tokens q).map (Lexeme.shift (size p.toList)))
    (hended : Ended (Lexer.tokens p)) (fuel : Nat) :
    s.run fuel (p ++ q) =
      (s.run fuel p).bind fun (first, mid) =>
        (mid.run fuel q).map fun (second, last) =>
          (Report.join (size p.toList) first second, last) := by
  have hwords := Lexer.namesAreWords_tokens p
  have hbytes : size (p ++ q).toList = size p.toList + size q.toList := by
    rw [String.toList_append, Source.size_append]
  rw [run, htokens, statements_append h hwords hended, run, hbytes]
  refine Option.bind_congr fun (first, mid) hrun => ?_
  have hmid : mid.Sound := h.statements hwords hrun
  dsimp only
  rw [statements_map_shift hmid (Lexer.namesAreWords_tokens q), Option.map_map, run]
  rfl

/-- Splitting a source behind a semicolon changes nothing, unless a comment hides the semicolon: the
second part runs in the session that the first part leaves, with the same reports, each of them as
much further as the first part is long. -/
theorem Reachable.run_split {options : Options} {machine : Machine} {m : Moment}
    (h : Reachable options machine m) {p : String}
    (hcomment : Lexer.commentOpen false p.toList = false) (fuel : Nat) (q : String) :
    (m.session.run fuel (p ++ ";" ++ q) =
      (m.session.run fuel (p ++ ";")).bind fun (before, mid) =>
        (mid.run fuel q).map fun (behind, last) =>
          (Report.join (size p.toList + 1) before behind, last)) ∧
    ∀ before behind : List (Located Report),
      Report.outcomes (Report.join (size p.toList + 1) before behind) =
        Report.outcomes before ++ Report.outcomes behind ∧
      Report.output (Report.join (size p.toList + 1) before behind) =
        Report.output before ++ Report.output behind ∧
      Report.diagnostics (Report.join (size p.toList + 1) before behind) =
        Report.diagnostics before ++
          (Report.diagnostics behind).map (Diagnostic.shift (size p.toList + 1)) := by
  refine ⟨?_, fun before behind => ⟨Report.outcomes_join .., Report.output_join ..,
    Report.diagnostics_join ..⟩⟩
  have hsound : m.session.Sound := ⟨_, h.consistent.operators⟩
  have hbytes : size (p ++ ";").toList = size p.toList + 1 := by
    rw [String.toList_append, Source.size_append]
    rfl
  obtain ⟨htokens, hended⟩ := Lexer.tokens_append_semicolon hcomment q
  rw [← hbytes] at htokens ⊢
  exact hsound.run_append htokens hended fuel

/-- The first semicolon belongs to a comment, the second one ends a rejected statement. Behind it
there are a declaration and a call that fails, which is reported 21 bytes further in the whole
source. -/
theorem rejected_split : Reachable .standard .standard (.first .standard .standard) ∧
    Lexer.commentOpen false "def f(x # one;\n) x +".toList = false ∧
    (Session.start .standard .standard).run 100 ("def f(x # one;\n) x +" ++ ";" ++ "extern g(x); g(2)") =
      ((Session.start .standard .standard).run 100 ("def f(x # one;\n) x +" ++ ";")).bind
        (fun (before, mid) => (mid.run 100 "extern g(x); g(2)").map fun (behind, last) =>
          (Report.join 21 before behind, last)) ∧
    ∃ before mid behind last,
      (Session.start .standard .standard).run 100 ("def f(x # one;\n) x +" ++ ";") = some (before, mid) ∧
      mid.run 100 "extern g(x); g(2)" = some (behind, last) ∧
      (Session.start .standard .standard).run 100
        ("def f(x # one;\n) x +" ++ ";" ++ "extern g(x); g(2)") =
          some (Report.join 21 before behind, last) ∧
      Report.outcomes (Report.join 21 before behind) = [.declared "g"] ∧
      Report.diagnostics before = [⟨"expected an expression, found `;`", ⟨20, 21⟩⟩] ∧
      Report.diagnostics behind = [⟨"unresolved external function `g`", ⟨13, 17⟩⟩] ∧
      Report.diagnostics (Report.join 21 before behind) =
        [⟨"expected an expression, found `;`", ⟨20, 21⟩⟩,
          ⟨"unresolved external function `g`", ⟨34, 38⟩⟩] := by
  have hcomment : Lexer.commentOpen false "def f(x # one;\n) x +".toList = false := by decide
  have hfirst : Reachable .standard .standard (.first .standard .standard) := .first
  obtain ⟨hsplit, hjoin⟩ := Reachable.run_split hfirst hcomment 100 "extern g(x); g(2)"
  have hevaluated : (((Session.start .standard .standard).run 100
      ("def f(x # one;\n) x +" ++ ";")).any fun (before, mid) =>
        (mid.run 100 "extern g(x); g(2)").any fun (behind, _) =>
          Report.outcomes before = [] ∧
          Report.diagnostics before = [⟨"expected an expression, found `;`", ⟨20, 21⟩⟩] ∧
          Report.outcomes behind = [.declared "g"] ∧
          Report.diagnostics behind = [⟨"unresolved external function `g`", ⟨13, 17⟩⟩]) = true := by
    decide +kernel
  obtain ⟨⟨before, mid⟩, hbefore, hevaluated⟩ := (Option.any_eq_true _ _).1 hevaluated
  obtain ⟨⟨behind, last⟩, hbehind, hdecided⟩ := (Option.any_eq_true _ _).1 hevaluated
  obtain ⟨houtcomes, hdiagnostics, houtcomes', hdiagnostics'⟩ := of_decide_eq_true hdecided
  obtain ⟨hjoined, -, hshifted⟩ := hjoin before behind
  refine ⟨hfirst, hcomment, hsplit, before, mid, behind, last, hbefore, hbehind, ?_, ?_, hdiagnostics,
    hdiagnostics', ?_⟩
  · change _ = ((Session.start .standard .standard).run 100 _).bind _ at hsplit
    rw [hbefore, Option.bind_some] at hsplit
    dsimp only at hsplit
    rw [hbehind] at hsplit
    exact hsplit
  · exact hjoined.trans (by rw [houtcomes, houtcomes']; rfl)
  · exact hshifted.trans (by rw [hdiagnostics, hdiagnostics']; rfl)

end Session

end Kaleidoscope
