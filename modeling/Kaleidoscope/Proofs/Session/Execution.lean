import Kaleidoscope.Proofs.Compiler.Linking
import Kaleidoscope.Proofs.Session.Splitting

/-!
# Compilation without execution

Whether bare expressions are run, and whether functions are listed, decides what is written and what
values there are. It does not decide what is compiled. Two sessions that differ in these settings
only are compared here, statement by statement and source by source: they have the same compiler all
the way, and what a statement leads to in one of them can be told from what it leads to in the
other.
-/

namespace Kaleidoscope.Session

/-- A source that has been run: the reports on its statements, and the session behind it. -/
abbrev Turn := List (Located Report) × Session

/-- Run sources one after the other. -/
def runAll (s : Session) (fuel : Nat) : List String → Option (List Turn)
  | [] => some []
  | text :: rest => (s.run fuel text).bind fun turn => (turn.2.runAll fuel rest).map (turn :: ·)

section Side

variable {fuel fuel' : Nat} {R : Session → Session → Prop} {V : Report → Report → Prop}
  {s s' last : Session} {reports : List (Located Report)}

/-- Whatever a session comes to, a session that is related to it comes to something alike: the
compilers are the same, a rejected statement is rejected in both, and any other statement leads to
reports that are alike and to related sessions. -/
structure Mirrors (fuel fuel' : Nat) (R : Session → Session → Prop) (V : Report → Report → Prop) :
    Prop where
  compiler : ∀ {s s'}, R s s' → s'.compiler = s.compiler
  rejected : ∀ error, V (withoutRun (.error (.parse error)) "") (withoutRun (.error (.parse error)) "")
  statement : ∀ {s s' found report next}, R s s' → s.statement fuel found = some (report, next) →
    ∃ report' next', s'.statement fuel' found = some (report', next') ∧ V report report' ∧
      R next next'

/-- Reports that are alike, at the same place. -/
def AtOnePlace (V : Report → Report → Prop) (report report' : Located Report) : Prop :=
  V report.value report'.value ∧ report'.span = report.span

/-- The reports on a source are alike, one by one, and the compilers behind it are the same. -/
structure Turn.Matches (V : Report → Report → Prop) (turn turn' : Turn) : Prop where
  reports : List.Forall₂ (AtOnePlace V) turn.1 turn'.1
  compiler : turn'.2.compiler = turn.2.compiler

/-- Sessions that mirror each other do so over all statements. -/
theorem Mirrors.statements (h : Mirrors fuel fuel' R V) {size : Nat} {tokens : List Lexeme}
    (hs : R s s') (hrun : s.statements fuel size tokens = some (reports, last)) :
    ∃ reports' last', s'.statements fuel' size tokens = some (reports', last') ∧
      List.Forall₂ (AtOnePlace V) reports reports' ∧ R last last' := by
  refine statements_induction (motive := fun s tokens reports last => ∀ s', R s s' →
    ∃ reports' last', s'.statements fuel' size tokens = some (reports', last') ∧
      List.Forall₂ (AtOnePlace V) reports reports' ∧ R last last')
    ?finished ?rejected ?executed hrun s' hs
  case finished =>
    intro s tokens hnone s' hs
    rw [statements_eq, h.compiler hs, hnone]
    exact ⟨[], s', rfl, .nil, hs⟩
  case rejected =>
    intro s tokens error rest reports last hnext ih s' hs
    obtain ⟨later', last', hlater', halike, hlast⟩ := ih s' hs
    rw [statements_eq, h.compiler hs, hnext]
    refine ⟨_ :: later', last', ?_, .cons ⟨h.rejected error.value, rfl⟩ halike, hlast⟩
    simp only [hlater', Option.map_some]
  case executed =>
    intro s tokens found rest report next reports last hnext hstatement ih s' hs
    obtain ⟨report', next', hstatement', hreport, hnext'⟩ := h.statement hs hstatement
    obtain ⟨later', last', hlater', halike, hlast⟩ := ih next' hnext'
    rw [statements_eq, h.compiler hs, hnext]
    refine ⟨⟨report', found.span⟩ :: later', last', ?_, .cons ⟨hreport, rfl⟩ halike, hlast⟩
    simp only [hstatement', Option.bind_some, hlater', Option.map_some]

/-- They do so over all sources. -/
theorem Mirrors.runAll (h : Mirrors fuel fuel' R V) {sources : List String} {turns : List Turn}
    (hs : R s s') (hrun : s.runAll fuel sources = some turns) :
    ∃ turns', s'.runAll fuel' sources = some turns' ∧
      List.Forall₂ (Turn.Matches V) turns turns' := by
  induction sources generalizing s s' turns with
  | nil =>
    cases hrun
    exact ⟨[], rfl, .nil⟩
  | cons text rest ih =>
    obtain ⟨⟨reports, next⟩, hfirst, hrun⟩ := Option.bind_eq_some_iff.1 hrun
    obtain ⟨later, hlater, rfl⟩ := Option.map_eq_some_iff.1 hrun
    obtain ⟨reports', next', hfirst', halike, hnext⟩ := h.statements hs hfirst
    obtain ⟨later', hlater', hmatch⟩ := ih hnext hlater
    refine ⟨(reports', next') :: later', ?_, .cons ⟨halike, h.compiler hnext⟩ hmatch⟩
    rw [Session.runAll, run, hfirst', Option.bind_some, hlater', Option.map_some]

end Side

/-- What a statement leads to if bare expressions are not run. -/
def unexecuted : Except StatementError Outcome → Except StatementError Outcome
  | .ok (.evaluated _) => .ok (.defined Prototype.anonymousName)
  | .error (.runtime _) => .ok (.defined Prototype.anonymousName)
  | result => result

/-- The second report is on the same statement, which was not run. -/
def Unexecuted (report report' : Report) : Prop :=
  report'.result = unexecuted report.result ∧ report'.natives = []

/-- Both sessions have the same compiler, but only the first one runs bare expressions. -/
structure Idles (s s' : Session) : Prop where
  compiler : s'.compiler = s.compiler
  runs : s.options.execute = true
  idles : s'.options.execute = false

/-- A report on a run that came to an end says what it says for an expression that was not run. -/
theorem unexecuted_afterRun (run : Machine.Run) (listing : String) :
    unexecuted (afterRun run listing).result = .ok (.defined Prototype.anonymousName) := by
  unfold afterRun
  split
  · rfl
  · rfl

/-- A statement does the same to the compiler whether it is run or not. -/
theorem mirrors_idles (fuel fuel' : Nat) : Mirrors fuel fuel' Idles Unexecuted := by
  refine ⟨Idles.compiler, fun _ => ⟨rfl, rfl⟩, fun {s s' found report next} hs hrun => ?_⟩
  obtain ⟨hcompiler, hruns, hidles⟩ := hs
  rcases hcompile : s.compiler.compile found with ⟨result, after⟩
  simp only [Session.statement, hcompile] at hrun
  simp only [Session.statement, hcompiler, hcompile]
  cases result with
  | error e =>
    cases hrun
    exact ⟨_, _, rfl, ⟨rfl, rfl⟩, rfl, hruns, hidles⟩
  | ok f =>
    cases found with
    | definition d =>
      cases hrun
      exact ⟨_, _, rfl, ⟨rfl, rfl⟩, rfl, hruns, hidles⟩
    | declaration p =>
      cases hrun
      exact ⟨_, _, rfl, ⟨rfl, rfl⟩, rfl, hruns, hidles⟩
    | evaluation body =>
      have hname : f.name = Prototype.anonymousName :=
        Compiler.name_of_define (congrArg Prod.fst hcompile)
      simp only [hruns, if_true] at hrun
      simp only [hidles, Bool.false_eq_true, if_false]
      obtain ⟨run, -, heq⟩ := Option.map_eq_some_iff.1 hrun
      cases heq
      refine ⟨_, _, rfl, ⟨?_, rfl⟩, rfl, hruns, hidles⟩
      rw [unexecuted_afterRun, withoutRun, hname]

/-- The reports differ in their listings at most. -/
def Relisted (report report' : Report) : Prop :=
  report'.result = report.result ∧ report'.natives = report.natives

/-- The sessions differ in whether they list functions at most. -/
structure Relists (s s' : Session) : Prop where
  compiler : s'.compiler = s.compiler
  machine : s'.machine = s.machine
  execute : s'.options.execute = s.options.execute

/-- Whether functions are listed makes no difference to anything but the listings. -/
theorem mirrors_relists (fuel : Nat) : Mirrors fuel fuel Relists Relisted := by
  refine ⟨Relists.compiler, fun _ => ⟨rfl, rfl⟩, fun {s s' found report next} hs hrun => ?_⟩
  obtain ⟨hcompiler, hmachine, hexecute⟩ := hs
  rcases hcompile : s.compiler.compile found with ⟨result, after⟩
  simp only [Session.statement, hcompile] at hrun
  simp only [Session.statement, hcompiler, hcompile, hmachine, hexecute]
  cases result with
  | error e =>
    cases hrun
    exact ⟨_, _, rfl, ⟨rfl, rfl⟩, rfl, rfl, hexecute⟩
  | ok f =>
    cases found with
    | definition d =>
      cases hrun
      exact ⟨_, _, rfl, ⟨rfl, rfl⟩, rfl, rfl, hexecute⟩
    | declaration p =>
      cases hrun
      exact ⟨_, _, rfl, ⟨rfl, rfl⟩, rfl, rfl, hexecute⟩
    | evaluation body =>
      dsimp only at hrun ⊢
      split at hrun
      · rename_i hruns
        obtain ⟨run, hcall, heq⟩ := Option.map_eq_some_iff.1 hrun
        cases heq
        rw [if_pos hruns, hcall, Option.map_some]
        refine ⟨_, _, rfl, ?_, rfl, rfl, hexecute⟩
        unfold afterRun
        split
        · exact ⟨rfl, rfl⟩
        · exact ⟨rfl, rfl⟩
      · rename_i hidles
        cases hrun
        rw [if_neg hidles]
        exact ⟨_, _, rfl, ⟨rfl, rfl⟩, rfl, rfl, hexecute⟩

/-- Sources are compiled alike whether bare expressions are run or not: after each of them there is
the same compiler, and each statement has the same outcome or the same error at the same place,
except that an expression that was evaluated, or whose run failed, is only defined where nothing is
run. Whether functions are listed changes none of this, with execution or without. -/
theorem compiled_alike (sources : List String) (list list' : Bool) (machine : Machine) (fuel : Nat) :
    (∀ turns, (start ⟨list, true⟩ machine).runAll fuel sources = some turns →
      ∀ (machine' : Machine) (fuel' : Nat),
        ∃ turns', (start ⟨list', false⟩ machine').runAll fuel' sources = some turns' ∧
          List.Forall₂ (Turn.Matches Unexecuted) turns turns') ∧
    ∀ execute turns, (start ⟨list, execute⟩ machine).runAll fuel sources = some turns →
      ∃ turns', (start ⟨list', execute⟩ machine).runAll fuel sources = some turns' ∧
        List.Forall₂ (Turn.Matches Relisted) turns turns' := by
  constructor
  · intro turns hrun machine' fuel'
    have hidles : Idles (start ⟨list, true⟩ machine) (start ⟨list', false⟩ machine') := ⟨rfl, rfl, rfl⟩
    exact (mirrors_idles fuel fuel').runAll hidles hrun
  · intro execute turns hrun
    have hrelists : Relists (start ⟨list, execute⟩ machine) (start ⟨list', execute⟩ machine) :=
      ⟨rfl, rfl, rfl⟩
    exact (mirrors_relists fuel).runAll hrelists hrun

/-- The first session runs a comparison and a call that fails for want of a body, the second one
only defines functions for them. What the second source defines and where it is rejected is the
same. -/
theorem failed_call_compiled_alike :
    let sources := ["extern h(x); 1 < 2; h(1)", "def f(x) h(x); f(1, 2)"]
    let mismatch : Diagnostic :=
      ⟨"incorrect number of arguments passed to `f`: expected 1, found 2", ⟨15, 22⟩⟩
    ∃ turns turns', (start ⟨false, true⟩ .standard).runAll 100 sources = some turns ∧
      (start ⟨false, false⟩ .standard).runAll 100 sources = some turns' ∧
      turns.map (fun turn => (Report.outcomes turn.1, Report.diagnostics turn.1)) =
        [([.declared "h", .evaluated 1], [⟨"unresolved external function `h`", ⟨20, 24⟩⟩]),
          ([.defined "f"], [mismatch])] ∧
      turns'.map (fun turn => (Report.outcomes turn.1, Report.diagnostics turn.1)) =
        [([.declared "h", .defined "__anon_expr", .defined "__anon_expr"], []),
          ([.defined "f"], [mismatch])] ∧
      List.Forall₂ (Turn.Matches Unexecuted) turns turns' := by
  intro sources mismatch
  have houtcomes : ((start ⟨false, true⟩ .standard).runAll 100 sources).map (fun turns =>
      turns.map fun turn => (Report.outcomes turn.1, Report.diagnostics turn.1)) =
        some [([.declared "h", .evaluated 1], [⟨"unresolved external function `h`", ⟨20, 24⟩⟩]),
          ([.defined "f"], [mismatch])] := by decide +kernel
  have houtcomes' : ((start ⟨false, false⟩ .standard).runAll 100 sources).map (fun turns =>
      turns.map fun turn => (Report.outcomes turn.1, Report.diagnostics turn.1)) =
        some [([.declared "h", .defined "__anon_expr", .defined "__anon_expr"], []),
          ([.defined "f"], [mismatch])] := by decide +kernel
  obtain ⟨turns, hrun, hturns⟩ := Option.map_eq_some_iff.1 houtcomes
  obtain ⟨turns', hrun', hmatch⟩ :=
    (compiled_alike sources false false .standard 100).1 turns hrun .standard 100
  rw [hrun', Option.map_some, Option.some.injEq] at houtcomes'
  exact ⟨turns, turns', hrun, hrun', hturns, houtcomes', hmatch⟩

end Kaleidoscope.Session
