import Kaleidoscope.Session
import Kaleidoscope.Proofs.Parser.Statements

/-!
# The history of a session

A session is followed from statement to statement, through all the sources that are run in it. A
moment of it is known by its state, by the tokens of the current source that are left, and by what
has happened so far. Running a source is going from moment to moment until no statement is left.
-/

namespace Kaleidoscope.Session

/-- A statement that a session has been through: the tokens from it on, and what it led to. -/
structure Event where
  tokens : List Lexeme
  report : Report

/-- The precedence that a number behind the symbol states. Without one it is the standard one. -/
def stated : List Token → Nat
  | .number value :: _ => Parser.wholePart value
  | _ => OperatorTable.standard

/-- The precedence that is written for a symbol, if the tokens begin with the definition of a binary
operator of that symbol. -/
def written? (symbol : Char) : List Token → Option Nat
  | .keyword .defKeyword :: .keyword .binaryKeyword :: .symbol c :: behind =>
    if c = symbol then some (stated behind) else none
  | _ => none

/-- Without a number the standard precedence is stated. -/
theorem stated_eq_standard {tokens : List Lexeme}
    (h : ∀ value more, ¬ Takes (.number value) tokens more) :
    stated (tokens.map Lexeme.token) = OperatorTable.standard := by
  cases tokens with
  | nil => rfl
  | cons first rest =>
    obtain ⟨token, span⟩ := first
    cases token with
    | number value => exact (h value rest ⟨span, rfl⟩).elim
    | _ => rfl

/-- Nothing is written for a symbol where no definition begins. -/
theorem written?_eq_none {tokens : List Lexeme}
    (h : ∀ more, ¬ Takes (.keyword .defKeyword) tokens more) (symbol : Char) :
    written? symbol (tokens.map Lexeme.token) = none := by
  cases tokens with
  | nil => rfl
  | cons first rest =>
    obtain ⟨token, span⟩ := first
    cases token with
    | keyword word =>
      cases word with
      | defKeyword => exact (h rest ⟨span, rfl⟩).elim
      | _ => rfl
    | _ => rfl

/-- The precedence that a statement gave to a symbol, if it succeeded. -/
def Event.gave? (symbol : Char) (event : Event) : Option Nat :=
  match event.report.result with
  | .ok _ => written? symbol (event.tokens.map Lexeme.token)
  | .error _ => none

/-- The precedence that the latest successful definition of an operator gave to it, the newest event
being the first. -/
def latest? (events : List Event) (symbol : Char) : Option Nat := events.findSome? (Event.gave? symbol)

/-- A session between two statements. The newest event is the first. -/
structure Moment where
  session : Session
  size : Nat
  tokens : List Lexeme
  events : List Event

namespace Moment

/-- Before the first source. -/
def first (options : Options) (machine : Machine) : Moment := ⟨.start options machine, 0, [], []⟩

/-- The next statement and what follows it. -/
def next? (m : Moment) : Option (Parser.Progress m.tokens) :=
  Parser.next? m.session.compiler.operators m.size m.tokens

/-- A statement has been read, with the given report and the given session afterwards. -/
def past (m : Moment) (progress : Parser.Progress m.tokens) (report : Report) (session : Session) :
    Moment :=
  ⟨session, m.size, progress.rest, ⟨Parser.fromNext m.tokens, report⟩ :: m.events⟩

end Moment

/-- What happens next: a source is begun where none is left, a statement is rejected, or a statement
is compiled, and run if it is a bare expression. -/
inductive Step : Moment → Moment → Prop where
  | source {m : Moment} (text : String) : m.next? = none →
      Step m { m with size := Source.size text.toList, tokens := Lexer.tokens text }
  | rejected {m : Moment} {progress : Parser.Progress m.tokens} {error : Located ParseError} :
      m.next? = some progress → progress.statement = .error error →
      Step m (m.past progress (withoutRun (.error (.parse error.value)) "") m.session)
  | executed {m : Moment} {progress : Parser.Progress m.tokens} {found : Located Statement}
      {fuel : Nat} {report : Report} {session : Session} :
      m.next? = some progress → progress.statement = .ok found →
      m.session.statement fuel found.value = some (report, session) →
      Step m (m.past progress report session)

/-- The moments of a session. -/
inductive Reachable (options : Options) (machine : Machine) : Moment → Prop where
  | first : Reachable options machine (.first options machine)
  | step {m next : Moment} : Reachable options machine m → Step m next →
      Reachable options machine next

variable {options : Options} {machine : Machine} {fuel : Nat} {m : Moment}
  {reports : List (Located Report)} {last : Session}

/-- Running the statements that are left goes from moment to moment, one report a statement, until
none is left. -/
theorem Reachable.statements (h : Reachable options machine m)
    (hrun : m.session.statements fuel m.size m.tokens = some (reports, last)) :
    ∃ final, Reachable options machine final ∧ final.session = last ∧ final.next? = none ∧
      final.events.map Event.report =
        (reports.map Located.value).reverse ++ m.events.map Event.report := by
  induction hsize : m.tokens.length using Nat.strongRecOn generalizing m reports with
  | ind size ih =>
    rw [statements] at hrun
    split at hrun
    · rename_i hnone
      cases hrun
      exact ⟨m, h, rfl, hnone, rfl⟩
    · rename_i found rest shorter hnext
      split at hrun
      · rename_i error span
        obtain ⟨⟨later, last'⟩, hlater, hrun⟩ := Option.bind_eq_some_iff.1 hrun
        cases hrun
        obtain ⟨final, hfinal, rfl, hnone, hevents⟩ :=
          ih rest.length (hsize ▸ shorter) (h.step (.rejected hnext rfl)) hlater rfl
        refine ⟨final, hfinal, rfl, hnone, ?_⟩
        rw [hevents]
        simp [Moment.past]
      · rename_i statement span
        obtain ⟨⟨report, session⟩, hstatement, hrun⟩ := Option.bind_eq_some_iff.1 hrun
        obtain ⟨⟨later, last'⟩, hlater, hrun⟩ := Option.bind_eq_some_iff.1 hrun
        cases hrun
        obtain ⟨final, hfinal, rfl, hnone, hevents⟩ :=
          ih rest.length (hsize ▸ shorter) (h.step (.executed hnext rfl hstatement)) hlater rfl
        refine ⟨final, hfinal, rfl, hnone, ?_⟩
        rw [hevents]
        simp [Moment.past]

/-- Where there is nothing to report, nothing has happened. -/
theorem eq_of_statements_eq_nil {s : Session} {size : Nat} {tokens : List Lexeme}
    (hrun : s.statements fuel size tokens = some ([], last)) : last = s := by
  rw [statements] at hrun
  split at hrun
  · cases hrun
    rfl
  · split at hrun
    · obtain ⟨⟨later, last'⟩, -, heq⟩ := Option.bind_eq_some_iff.1 hrun
      cases heq
    · obtain ⟨⟨report, next⟩, -, hrun⟩ := Option.bind_eq_some_iff.1 hrun
      obtain ⟨⟨later, last'⟩, -, heq⟩ := Option.bind_eq_some_iff.1 hrun
      cases heq

/-- Running a source where none is left leads to a moment where none is left. -/
theorem Reachable.run (h : Reachable options machine m) (hnone : m.next? = none) {text : String}
    (hrun : m.session.run fuel text = some (reports, last)) :
    ∃ final, Reachable options machine final ∧ final.session = last ∧ final.next? = none ∧
      final.events.map Event.report =
        (reports.map Located.value).reverse ++ m.events.map Event.report :=
  (h.step (.source text hnone)).statements hrun

end Kaleidoscope.Session
