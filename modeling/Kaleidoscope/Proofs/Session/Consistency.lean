import Kaleidoscope.Proofs.Compiler.Operators
import Kaleidoscope.Proofs.Parser.Soundness
import Kaleidoscope.Proofs.Session.History
import Kaleidoscope.Proofs.Token.Words

/-!
# Operators stay consistent over whole sessions

What is read is proper: its signatures can be spelled and its operators are known. Compiling a
proper statement keeps operators and functions together, and what a statement does to the operators
can be told from its tokens and its report. So the operator table is known from the history of a
session at any moment of it, and the compiler is never at fault.
-/

namespace Kaleidoscope

open Lexer (NamesAreWords)

namespace Parser

variable {table : OperatorTable} {tokens rest : List Lexeme}

/-- A signature that is read can be spelled. -/
theorem spoken_of_accepts (hwords : NamesAreWords tokens) {p : Prototype}
    (h : (prototype tokens).Accepts p rest) : p.Spoken := by
  cases acceptsPrototype h with
  | plain htakes =>
    obtain ⟨lexeme, hmem, hname⟩ := htakes.exists_mem
    exact .plain (hwords lexeme hmem _ hname)
  | unary => exact .unary
  | binary _ _ hvisible hbuiltin hn _ hlength =>
    rcases accepts_precedence.1 hn with ⟨value, -, hvalue⟩ | ⟨-, rfl, -⟩
    · obtain ⟨-, hleast, hgreatest⟩ := precedence?_eq_some hvalue
      exact .binary hvisible hbuiltin hleast hgreatest hlength
    · exact .binary hvisible hbuiltin (by decide) (by decide) hlength

/-- A statement that is read is proper. -/
theorem AcceptsStatement.proper (hwords : NamesAreWords tokens) {found : Statement}
    (h : AcceptsStatement table tokens found rest) : Compiler.Proper table found := by
  cases h with
  | definition htakes hp hbody =>
    exact ⟨spoken_of_accepts (hwords.suffix htakes.suffix) hp, knows_of_accepts hbody⟩
  | declaration => trivial
  | evaluation _ hbody => exact knows_of_accepts hbody

/-- What a statement that is read says of the precedence of a symbol is what is written. -/
theorem AcceptsStatement.written? {found : Statement}
    (h : AcceptsStatement table tokens found rest) (symbol : Char) :
    Session.written? symbol (tokens.map Lexeme.token) = Compiler.precedenceOf? symbol found := by
  cases h with
  | definition htakes hp hbody =>
    obtain ⟨span, rfl⟩ := htakes
    cases acceptsPrototype hp with
    | plain htakes =>
      obtain ⟨span', rfl⟩ := htakes
      rfl
    | unary htakes =>
      obtain ⟨span', rfl⟩ := htakes
      rfl
    | @binary stated operator behind n opened parameters mid htakes hsymbol _ _ hn =>
      obtain ⟨span', rfl⟩ := htakes
      obtain ⟨span'', rfl⟩ := hsymbol
      have hstated : Session.stated (behind.map Lexeme.token) = n := by
        rcases accepts_precedence.1 hn with ⟨value, ⟨_, rfl⟩, hvalue⟩ | ⟨hnone, rfl, -⟩
        · exact (precedence?_eq_some hvalue).1
        · exact Session.stated_eq_standard hnone
      change (if operator = symbol then some (Session.stated (behind.map Lexeme.token)) else none) =
        if Prototype.binaryName operator = Prototype.binaryName symbol then some n else none
      rw [hstated]
      simp only [Prototype.binaryName_inj]
  | declaration htakes =>
    obtain ⟨span, rfl⟩ := htakes
    rfl
  | evaluation hdef => exact Session.written?_eq_none hdef symbol

end Parser

namespace Session

variable {s next : Session} {fuel : Nat} {report : Report} {statement : Statement}
  {latest : Char → Option Nat} {tokens rest : List Lexeme}

/-- A statement has no code, it has code that is not run, or it is a bare expression, whose function
is removed. If such a statement fails then, its run has failed. -/
theorem statement_cases (hrun : s.statement fuel statement = some (report, next)) :
    next.machine = s.machine ∧
    ((∃ e, (s.compiler.compile statement).1 = .error e ∧ report.result = .error (.compile e) ∧
        next.compiler = (s.compiler.compile statement).2) ∨
      (∃ f outcome, (∀ body, statement ≠ .evaluation body) ∧
        (s.compiler.compile statement).1 = .ok f ∧ report.result = .ok outcome ∧
        next.compiler = (s.compiler.compile statement).2) ∨
      ∃ f body, statement = .evaluation body ∧ (s.compiler.compile statement).1 = .ok f ∧
        next.compiler = (s.compiler.compile statement).2.erase f.name ∧
        ∀ e, report.result = .error e → ∃ e' run, e = .runtime e' ∧ run.result = .error e' ∧
          s.machine.call (s.compiler.compile statement).2.program fuel f.name [] = some run) := by
  rcases hresult : s.compiler.compile statement with ⟨result, after⟩
  rw [Session.statement, hresult] at hrun
  cases result with
  | error e =>
    cases hrun
    exact ⟨rfl, .inl ⟨e, rfl, rfl, rfl⟩⟩
  | ok f =>
    cases statement with
    | definition d =>
      cases hrun
      exact ⟨rfl, .inr (.inl ⟨f, _, nofun, rfl, rfl, rfl⟩)⟩
    | declaration p =>
      cases hrun
      exact ⟨rfl, .inr (.inl ⟨f, _, nofun, rfl, rfl, rfl⟩)⟩
    | evaluation body =>
      dsimp only at hrun
      split at hrun
      · obtain ⟨run, hcall, hrun⟩ := Option.map_eq_some_iff.1 hrun
        cases hrun
        refine ⟨rfl, .inr (.inr ⟨f, body, rfl, rfl, rfl, fun e he => ?_⟩)⟩
        unfold afterRun at he
        split at he
        · rename_i e' hfailed
          cases he
          exact ⟨e', run, rfl, hfailed, hcall⟩
        · cases he
      · cases hrun
        exact ⟨rfl, .inr (.inr ⟨f, body, rfl, rfl, rfl, nofun⟩)⟩

/-- A statement keeps operators and functions together, and what its report says of its precedence
is what has become of it. If it has no code, the cause lies in the program text. -/
theorem consistent_statement (h : s.compiler.Consistent latest) (hwords : NamesAreWords tokens)
    (haccepts : Parser.AcceptsStatement s.compiler.operators tokens statement rest)
    (hrun : s.statement fuel statement = some (report, next)) :
    (next.compiler.Consistent fun symbol =>
        (Event.gave? symbol ⟨tokens, report⟩).or (latest symbol)) ∧
      ∀ e, report.result = .error (.compile e) → e.IsReportable := by
  have hwritten := haccepts.written?
  have hcompiled := h.compile (haccepts.proper hwords)
  obtain ⟨-, ⟨e, hcompile, hresult, hnext⟩ | ⟨f, outcome, -, hcompile, hresult, hnext⟩ |
    ⟨f, body, rfl, hcompile, hnext, hresult⟩⟩ := statement_cases hrun
  · simp only [hcompile, Except.error.injEq, reduceCtorEq, false_and, exists_false, or_false,
      exists_eq_left'] at hcompiled
    obtain ⟨hreportable, hafter⟩ := hcompiled
    refine ⟨?_, fun e' he' => ?_⟩
    · simp only [Event.gave?, hresult, Option.none_or]
      exact hnext ▸ hafter
    · rw [hresult] at he'
      cases he'
      exact hreportable
  · simp only [hcompile, Except.ok.injEq, reduceCtorEq, false_and, exists_false, false_or,
      exists_eq_left'] at hcompiled
    refine ⟨?_, fun e he => ?_⟩
    · simp only [Event.gave?, hresult, hwritten]
      exact hnext ▸ hcompiled.2
    · rw [hresult] at he
      cases he
  · simp only [hcompile, Except.ok.injEq, reduceCtorEq, false_and, exists_false, false_or,
      exists_eq_left'] at hcompiled
    obtain ⟨hname, hafter⟩ := hcompiled
    refine ⟨?_, fun e he => ?_⟩
    · have hgave (symbol : Char) : Event.gave? symbol ⟨tokens, report⟩ = none := by
        unfold Event.gave?
        split
        · exact hwritten symbol
        · rfl
      simp only [hgave, Option.none_or]
      exact hnext ▸ hafter.erase fun symbol => hname body rfl ▸ Prototype.anonymousName_ne symbol
    · obtain ⟨_, _, he', -⟩ := hresult _ he
      cases he'

/-- What holds at every moment of a session. -/
structure Moment.Consistent (m : Moment) : Prop where
  words : NamesAreWords m.tokens
  operators : m.session.compiler.Consistent (latest? m.events)
  reportable : ∀ event ∈ m.events, ∀ e, event.report.result = .error (.compile e) → e.IsReportable

/-- What the newest event gave counts before what the earlier ones gave. -/
theorem latest?_cons (event : Event) (events : List Event) :
    latest? (event :: events) = fun symbol => (event.gave? symbol).or (latest? events symbol) := by
  funext symbol
  rw [latest?, List.findSome?_cons]
  cases event.gave? symbol <;> rfl

/-- Every step keeps the session consistent. -/
theorem Step.consistent {m after : Moment} (h : Step m after) (hm : m.Consistent) :
    after.Consistent := by
  cases h with
  | source text => exact ⟨Lexer.namesAreWords_tokens text, hm.operators, hm.reportable⟩
  | rejected hnext herror =>
    obtain ⟨hsuffix, -⟩ := Parser.next?_eq_some hnext
    refine ⟨hm.words.suffix hsuffix, ?_, List.forall_mem_cons.2 ⟨nofun, hm.reportable⟩⟩
    rw [Moment.past, latest?_cons]
    exact hm.operators
  | executed hnext hfound hrun =>
    obtain ⟨hsuffix, haccepts⟩ := Parser.next?_eq_some hnext
    obtain ⟨rest, haccepts⟩ := haccepts _ hfound
    obtain ⟨hoperators, hreportable⟩ := consistent_statement hm.operators
      (hm.words.suffix (List.dropWhile_suffix _)) haccepts hrun
    refine ⟨hm.words.suffix hsuffix, ?_, List.forall_mem_cons.2 ⟨hreportable, hm.reportable⟩⟩
    rw [Moment.past, latest?_cons]
    exact hoperators

/-- Every moment of a session is consistent. -/
theorem Reachable.consistent {options : Options} {machine : Machine} {m : Moment}
    (h : Reachable options machine m) : m.Consistent := by
  induction h with
  | first => exact ⟨nofun, Compiler.consistent_start, fun _ hmem => (List.not_mem_nil hmem).elim⟩
  | step _ hstep ih => exact hstep.consistent ih

/-- Operators and functions belong together at every moment of a session. The built-in operators
have the precedences that they were seeded with. Another symbol is an operator exactly if a
definition of it has succeeded; its precedence is the one written in the latest such definition and
lies in range, and there is a function of two parameters behind it. No statement has failed for a
fault of the compiler. -/
theorem Reachable.operators_implemented {options : Options} {machine : Machine} {m : Moment}
    (h : Reachable options machine m) :
    (∀ entry ∈ OperatorTable.builtins,
      m.session.compiler.operators.lookup entry.1 = some entry.2) ∧
    (∀ symbol, OperatorTable.isBuiltin symbol = false →
      ((m.session.compiler.operators.lookup symbol).isSome ↔
        ∃ event ∈ m.events, (event.gave? symbol).isSome) ∧
      m.session.compiler.operators.lookup symbol = latest? m.events symbol ∧
      ∀ n, m.session.compiler.operators.lookup symbol = some n → 1 ≤ n ∧ n ≤ 100 ∧
        ∃ f, m.session.compiler.program.find? (Prototype.binaryName symbol) = some f ∧
          f.body.isSome ∧ f.arity = 2) ∧
    ∀ event ∈ m.events, ∀ e, event.report.result = .error (.compile e) → e.IsReportable := by
  obtain ⟨-, hoperators, hreportable⟩ := h.consistent
  refine ⟨hoperators.builtin, fun symbol hbuiltin => ?_, hreportable⟩
  rw [hoperators.defined symbol hbuiltin]
  refine ⟨List.findSome?_isSome_iff, rfl, fun n hn => ?_⟩
  obtain ⟨-, hleast, hgreatest, hfunction⟩ := hoperators.implemented symbol n hbuiltin hn
  exact ⟨hleast, hgreatest, hfunction⟩

/-- Behind `def binary $(a b)a` the symbol is an operator of the standard precedence, as its history
says, and has a function behind it. -/
theorem dollar_implemented : ∃ m, Reachable .standard .standard m ∧
    m.session.compiler.operators.lookup '$' = some OperatorTable.standard ∧
    latest? m.events '$' = some OperatorTable.standard ∧
    ∃ f, m.session.compiler.program.find? (Prototype.binaryName '$') = some f ∧ f.body.isSome ∧
      f.arity = 2 := by
  have hevaluated : (((start .standard .standard).run 0 "def binary $(a b)a").any fun result =>
      result.2.compiler.operators.lookup '$' = some OperatorTable.standard) = true := by decide +kernel
  obtain ⟨⟨reports, last⟩, hrun, hlookup⟩ := (Option.any_eq_true _ _).1 hevaluated
  obtain ⟨m, h, rfl, -, -⟩ := Reachable.first.run rfl hrun
  obtain ⟨-, hoperators, -⟩ := Reachable.operators_implemented h
  obtain ⟨-, hlatest, hfunction⟩ := hoperators '$' rfl
  have hstandard := of_decide_eq_true hlookup
  exact ⟨m, h, hstandard, hlatest ▸ hstandard, (hfunction OperatorTable.standard hstandard).2.2⟩

end Session

end Kaleidoscope
