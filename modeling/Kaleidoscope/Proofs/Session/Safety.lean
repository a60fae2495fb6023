import Kaleidoscope.Proofs.Compiler.Linking
import Kaleidoscope.Proofs.Session.Consistency

/-!
# Sessions do not go wrong

At every moment of a session each callee in the program is a function of the program, and the
functions of bare expressions are gone. As long as a name is always given the same number of
parameters, calls fit their callees, and an expression whose run fails is not at fault: its calls
are nested too deeply, or one of its callees is implemented nowhere. What is given counts from when
a statement has been read, even if its function cannot be generated.
-/

namespace Kaleidoscope

/-- The failures for which no code is to blame: calls are nested too deeply, or a function has
neither a body nor a native implementation. -/
inductive Machine.Blameless (m : Machine) (p : Ssa.Program) : Machine.RuntimeError → Prop where
  | callDepth : Blameless m p (.callDepth m.limit)
  | unresolved {name : String} : bodyOf? p name = none → m.natives.lookup name = none →
      Blameless m p (.unresolved name)

/-- Fewer signatures agree, too. -/
theorem Agreed.of_subset {m : Machine} {given later : List Prototype} (h : Agreed m later)
    (hle : given ⊆ later) : Agreed m given where
  arity p hp q hq := h.arity p (hle hp) q (hle hq)
  native p hp := h.native p (hle hp)

namespace Parser

open Lexer (NamesAreWords)

variable {table : OperatorTable} {tokens rest : List Lexeme}

/-- No signature that is read has the name of a bare expression. -/
theorem name_ne_anonymousName_of_accepts (hwords : NamesAreWords tokens) {p : Prototype}
    (h : (prototype tokens).Accepts p rest) : p.name ≠ Prototype.anonymousName := by
  cases acceptsPrototype h with
  | plain htakes =>
    obtain ⟨lexeme, hmem, hname⟩ := htakes.exists_mem
    exact Prototype.ne_anonymousName_of_word (hwords lexeme hmem _ hname)
  | unary => exact (Prototype.anonymousName_ne_unaryName _).symm
  | binary => exact (Prototype.anonymousName_ne _).symm

/-- A statement that is read calls words and names no function as bare expressions are named. -/
theorem AcceptsStatement.linkable (hwords : NamesAreWords tokens) {found : Statement}
    (h : AcceptsStatement table tokens found rest) : Compiler.Linkable found := by
  cases h with
  | definition htakes hp hbody =>
    have hbehind := hwords.suffix htakes.suffix
    have hname := name_ne_anonymousName_of_accepts hbehind hp
    obtain ⟨hsuffix, -⟩ := hp
    exact ⟨hname, callsWord_of_accepts (hbehind.suffix hsuffix) hbody⟩
  | declaration htakes hp =>
    exact name_ne_anonymousName_of_accepts (hwords.suffix htakes.suffix) hp
  | evaluation _ hbody => exact callsWord_of_accepts hwords hbody

end Parser

/-- A definition that fails leaves the program alone. -/
theorem Compiler.program_of_define {c : Compiler} {d : Definition} {e : CompileError}
    (h : (c.define d).1 = .error e) : (c.define d).2.program = c.program := by
  obtain ⟨e, -, heq⟩ | ⟨table, e, -, -, heq⟩ | ⟨table, lowered, -, -, heq⟩ := c.define_cases d
  · rw [heq]
  · rw [heq]
  · rw [heq] at h
    cases h

/-- A statement that has no code leaves the program alone. -/
theorem Compiler.program_of_compile {c : Compiler} {statement : Statement} {e : CompileError}
    (h : (c.compile statement).1 = .error e) : (c.compile statement).2.program = c.program := by
  cases statement with
  | definition d => exact @program_of_define c d e h
  | declaration p => cases h
  | evaluation body => exact @program_of_define c ⟨.anonymous, body⟩ e h

namespace Session

variable {s next : Session} {fuel : Nat} {report : Report} {statement : Statement}
  {definitions : Definitions} {given : List Prototype}

/-- What holds of a session between two statements. -/
structure Linked (s : Session) (given : List Prototype) : Prop where
  linked : ∃ definitions, Compiler.Linked s.compiler definitions given
  anonymous : s.compiler.program.find? Prototype.anonymousName = none

/-- A statement keeps the program linked. If calls fit their callees and its run fails, no code is
to blame. -/
theorem linked_statement (h : s.Linked given) (hlinkable : Compiler.Linkable statement)
    (hrun : s.statement fuel statement = some (report, next)) :
    next.Linked (statement.prototype :: given) ∧
      (Agreed s.machine (statement.prototype :: given) → ∀ e, report.result = .error (.runtime e) →
        s.machine.Blameless next.compiler.program e) := by
  obtain ⟨⟨definitions, hlinked⟩, hnone⟩ := h
  obtain ⟨after, hafter⟩ := hlinked.compile hlinkable
  obtain ⟨-, ⟨e, hcompile, hresult, hnext⟩ | ⟨-, outcome, hstatement, -, hresult, hnext⟩ |
    ⟨f, body, rfl, hcompile, hnext, hresult⟩⟩ := statement_cases hrun
  · refine ⟨⟨⟨after, hnext ▸ hafter⟩, ?_⟩, fun _ e' he' => ?_⟩
    · rw [hnext, Compiler.program_of_compile hcompile]
      exact hnone
    · rw [hresult] at he'
      cases he'
  · refine ⟨⟨⟨after, hnext ▸ hafter⟩, ?_⟩, fun _ e' he' => ?_⟩
    · rw [hnext]
      exact hlinked.find?_compile_eq_none hlinkable hstatement hnone
    · rw [hresult] at he'
      cases he'
  · have hname : f.name = Prototype.anonymousName := Compiler.name_of_define hcompile
    have hdistinct := hafter.faithful.distinct
    rw [hname] at hnext hresult
    refine ⟨⟨⟨_, hnext ▸ hafter.erase⟩, ?_⟩, fun hagreed e he => ?_⟩
    · rw [hnext]
      exact (hdistinct.find?_erase _ _).trans (if_pos rfl)
    · obtain ⟨e', run, he', hfailed, hcall⟩ := hresult _ he
      cases he'
      have hsigned : Signed ((Statement.evaluation body).prototype :: given)
          Prototype.anonymousName ([] : List Float).length :=
        ⟨.anonymous, List.mem_cons_self, rfl, rfl⟩
      cases hafter.faithful.represents.unavoidable hagreed hafter.fit hsigned hcall hfailed with
      | callDepth => exact .callDepth
      | @unresolved name hundefined hnative =>
        refine .unresolved ?_ hnative
        have herase := Machine.bodyOf?_erase hdistinct Prototype.anonymousName name
        rw [hafter.faithful.represents.bodyOf_eq_none hundefined, ite_self] at herase
        rw [hnext]
        exact herase

/-- The signature that the next statement gives, if it can be read. -/
def Moment.signature? (m : Moment) : Option Prototype :=
  match m.next? with
  | some progress => progress.statement.toOption.map (·.value.prototype)
  | none => none

/-- A statement that can be read gives its signature. -/
theorem Moment.signature?_eq_some {m : Moment} {progress : Parser.Progress m.tokens}
    {found : Located Statement} (hnext : m.next? = some progress)
    (hfound : progress.statement = .ok found) : m.signature? = some found.value.prototype := by
  simp only [signature?, hnext, hfound]
  rfl

/-- The moments of a session, with the signatures that have been given until then. The newest one is
the first. -/
inductive ReachableWith (options : Options) (machine : Machine) : Moment → List Prototype → Prop where
  | first : ReachableWith options machine (.first options machine) []
  | step {m next : Moment} {given : List Prototype} : ReachableWith options machine m given →
      Step m next → ReachableWith options machine next (m.signature?.toList ++ given)

variable {options : Options} {machine : Machine} {m after : Moment}

/-- A moment that is reached with signatures is reached. -/
theorem ReachableWith.reachable (h : ReachableWith options machine m given) :
    Reachable options machine m := by
  induction h with
  | first => exact .first
  | step _ hstep ih => exact ih.step hstep

/-- At every moment some signatures have been given. -/
theorem Reachable.exists_given (h : Reachable options machine m) :
    ∃ given, ReachableWith options machine m given := by
  induction h with
  | first => exact ⟨_, .first⟩
  | step _ hstep ih =>
    obtain ⟨given, hgiven⟩ := ih
    exact ⟨_, hgiven.step hstep⟩

/-- The moment in which a source has been begun. -/
def Moment.begun (m : Moment) (text : String) : Moment :=
  { m with size := Source.size text.toList, tokens := Lexer.tokens text }

/-- A source with a single statement is gone through in two steps, and what it gives is the
signature of that statement. -/
theorem ReachableWith.run_single (h : ReachableWith options machine m given) (hnone : m.next? = none)
    {text : String} {p : Prototype} {report : Located Report} {last : Session}
    (hsignature : (m.begun text).signature? = some p)
    (hrun : m.session.run fuel text = some ([report], last)) :
    ∃ after, ReachableWith options machine after (p :: given) ∧ after.session = last := by
  have hbegun : ReachableWith options machine (m.begun text) (m.signature?.toList ++ given) :=
    h.step (.source text hnone)
  rw [Moment.signature?, hnone] at hbegun
  have hgiven {after : Moment} (hstep : Step (m.begun text) after) :
      ReachableWith options machine after (p :: given) := by
    have hafter := hbegun.step hstep
    rwa [hsignature] at hafter
  rw [run, statements] at hrun
  split at hrun
  · cases hrun
  · rename_i found rest shorter hnext
    split at hrun
    · obtain ⟨⟨later, last'⟩, hlater, heq⟩ := Option.bind_eq_some_iff.1 hrun
      cases heq
      exact ⟨_, hgiven (.rejected hnext rfl), (eq_of_statements_eq_nil hlater).symm⟩
    · obtain ⟨⟨report, session⟩, hstatement, hrun⟩ := Option.bind_eq_some_iff.1 hrun
      obtain ⟨⟨later, last'⟩, hlater, heq⟩ := Option.bind_eq_some_iff.1 hrun
      cases heq
      exact ⟨_, hgiven (.executed hnext rfl hstatement), (eq_of_statements_eq_nil hlater).symm⟩

/-- What holds at every moment of a session. The newest failure of a run is seen in the light of the
program that there is now, an earlier one in the light of the program that there was then. -/
structure Moment.Safe (machine : Machine) (m : Moment) (given : List Prototype) : Prop where
  kept : m.session.machine = machine
  linked : m.session.Linked given
  newest : Agreed machine given → ∀ event ∈ m.events.head?, ∀ e,
    event.report.result = .error (.runtime e) → machine.Blameless m.session.compiler.program e
  earlier : Agreed machine given → ∀ event ∈ m.events, ∀ e,
    event.report.result = .error (.runtime e) → ∃ program, machine.Blameless program e

/-- Every step keeps a session safe. -/
theorem Step.safe (h : Step m after) (hwords : Lexer.NamesAreWords m.tokens)
    (hm : m.Safe machine given) : after.Safe machine (m.signature?.toList ++ given) := by
  cases h with
  | source text hnone =>
    rw [Moment.signature?, hnone]
    exact ⟨hm.kept, hm.linked, hm.newest, hm.earlier⟩
  | rejected hnext herror =>
    simp only [Moment.signature?, hnext, herror]
    refine ⟨hm.kept, hm.linked, fun hagreed event hevent e he => ?_, fun hagreed event hevent => ?_⟩
    · obtain rfl := Option.mem_some_iff.1 hevent
      cases he
    · rcases List.mem_cons.1 hevent with rfl | hevent
      · exact nofun
      · exact hm.earlier hagreed event hevent
  | executed hnext hfound hrun =>
    rw [Moment.signature?_eq_some hnext hfound]
    obtain ⟨-, haccepts⟩ := Parser.next?_eq_some hnext
    obtain ⟨rest, haccepts⟩ := haccepts _ hfound
    have hlinkable := haccepts.linkable (hwords.suffix (List.dropWhile_suffix _))
    obtain ⟨hlinked, hblameless⟩ := linked_statement hm.linked hlinkable hrun
    rw [hm.kept] at hblameless
    refine ⟨(statement_cases hrun).1.trans hm.kept, hlinked, fun hagreed event hevent => ?_,
      fun hagreed event hevent e he => ?_⟩
    · obtain rfl := Option.mem_some_iff.1 hevent
      exact hblameless hagreed
    · rcases List.mem_cons.1 hevent with rfl | hevent
      · exact ⟨_, hblameless hagreed e he⟩
      · exact hm.earlier (hagreed.of_subset (List.subset_cons_self _ _)) event hevent e he

/-- Nothing has gone wrong before the first statement. -/
theorem safe_first : (Moment.first options machine).Safe machine [] where
  kept := rfl
  linked := ⟨⟨_, Compiler.linked_start⟩, rfl⟩
  newest _ event hevent := by cases hevent
  earlier _ event hevent := by cases hevent

/-- Every moment that is reached is safe. -/
theorem ReachableWith.safe (h : ReachableWith options machine m given) : m.Safe machine given := by
  induction h with
  | first => exact safe_first
  | step hm hstep ih => exact hstep.safe hm.reachable.consistent.words ih

/-- At every moment of a session the functions of bare expressions are gone, no two functions have
one name, and what any of them calls is a function of the program. If each name has had one number
of parameters in all definitions and declarations so far, and the native function of that name has
it, too, then every call has as many arguments as its callee has parameters, and the only failures
of runs have been calls nested too deeply and functions with neither a body nor a native
implementation. -/
theorem ReachableWith.calls_fit (h : ReachableWith options machine m given) :
    m.session.compiler.program.find? Prototype.anonymousName = none ∧
    m.session.compiler.program.Distinct ∧
    (∀ f ∈ m.session.compiler.program.functions, ∀ callee n, f.Calls callee n →
      (m.session.compiler.program.find? callee).isSome) ∧
    (Agreed machine given →
      (∀ f ∈ m.session.compiler.program.functions, ∀ callee n, f.Calls callee n →
        ∀ g, m.session.compiler.program.find? callee = some g → n = g.arity) ∧
      (∀ event ∈ m.events.head?, ∀ e, event.report.result = .error (.runtime e) →
        machine.Blameless m.session.compiler.program e) ∧
      ∀ event ∈ m.events, ∀ e, event.report.result = .error (.runtime e) →
        ∃ program, machine.Blameless program e) := by
  obtain ⟨-, ⟨⟨definitions, hlinked⟩, hnone⟩, hnewest, hearlier⟩ := h.safe
  refine ⟨hnone, hlinked.faithful.distinct, fun f hf callee n hcall =>
    (hlinked.calls f hf callee n hcall).2.1, fun hagreed => ⟨fun f hf callee n hcall g hg => ?_,
    hnewest hagreed, hearlier hagreed⟩⟩
  obtain ⟨-, -, p, hp, hname, harity⟩ := hlinked.calls f hf callee n hcall
  obtain ⟨hmem, rfl⟩ := Ssa.Program.find?_eq_some hg
  obtain ⟨q, hq, hname', harity'⟩ := hlinked.signed g hmem
  rw [← harity, ← harity']
  exact hagreed.arity p hp q hq (hname.trans hname'.symm)

/-- A function that calls itself calls a function of the program, on as many arguments as it has
parameters. -/
theorem recursion_fits :
    ∃ m, ReachableWith .standard .standard m [⟨Prototype.unaryName '!', ["x"], .unary⟩] ∧
      Agreed .standard [⟨Prototype.unaryName '!', ["x"], .unary⟩] ∧
      ∃ f ∈ m.session.compiler.program.functions, f.Calls (Prototype.unaryName '!') 1 ∧
        (m.session.compiler.program.find? (Prototype.unaryName '!')).isSome ∧
        ∀ g, m.session.compiler.program.find? (Prototype.unaryName '!') = some g → 1 = g.arity := by
  have hevaluated : (((start .standard .standard).run 0 "def unary !(x)!x").any fun result =>
      result.1.length = 1 ∧ ∃ f ∈ result.2.compiler.program.functions,
        f.Calls (Prototype.unaryName '!') 1) = true := by decide +kernel
  obtain ⟨⟨reports, last⟩, hrun, hdecided⟩ := (Option.any_eq_true _ _).1 hevaluated
  obtain ⟨hsingle, f, hmem, hcalls⟩ := of_decide_eq_true hdecided
  obtain ⟨report, rfl⟩ := List.length_eq_one_iff.1 hsingle
  have hsignature : ((Moment.first .standard .standard).begun "def unary !(x)!x").signature? =
      some ⟨Prototype.unaryName '!', ["x"], .unary⟩ := by decide +kernel
  obtain ⟨m, h, rfl⟩ := ReachableWith.first.run_single rfl hsignature hrun
  have hagreed : Agreed .standard [⟨Prototype.unaryName '!', ["x"], .unary⟩] := by
    refine ⟨fun p hp q hq _ => ?_, fun p hp native hnative => ?_⟩
    · rw [List.mem_singleton.1 hp, List.mem_singleton.1 hq]
    · rw [List.mem_singleton.1 hp] at hnative
      cases hnative
  obtain ⟨-, -, hfound, hfits⟩ := ReachableWith.calls_fit h
  obtain ⟨hfits, -, -⟩ := hfits hagreed
  exact ⟨m, h, hagreed, f, hmem, hcalls, hfound f hmem _ _ hcalls, hfits f hmem _ _ hcalls⟩

end Session

end Kaleidoscope
