import Kaleidoscope.Proofs.Compiler.Definitions
import Kaleidoscope.Proofs.Lowering.Errors
import Kaleidoscope.Proofs.Syntax.Signatures

/-!
# Operators and the functions behind them

The operator table and the program change together. Whatever is defined, declared or rejected, the
built-in operators stay as they are, and every other operator of the table has a function of two
parameters behind it, so that its applications have code.
-/

namespace Kaleidoscope

namespace Compiler

open OperatorTable (isBuiltin least greatest)
open Prototype (binaryName)

variable {c : Compiler} {d : Definition} {p : Prototype} {table : OperatorTable}

/-- What the table says after an operator has been installed, and how to take it back. -/
theorem installOperator_eq_ok (h : p.Spoken) (before : OperatorTable) :
    ∃ table, installOperator before p = .ok table ∧ removeOperator before table p = before ∧
      ∀ symbol, table.lookup symbol = (p.precedenceOf? symbol).or (before.lookup symbol) := by
  cases h with
  | plain => exact ⟨before, rfl, rfl, fun _ => rfl⟩
  | anonymous => exact ⟨before, rfl, rfl, fun _ => rfl⟩
  | unary => exact ⟨before, rfl, rfl, fun _ => rfl⟩
  | @binary operator n parameters _ _ hleast hgreatest =>
    have hoperator : Prototype.operator? ⟨binaryName operator, parameters, .binary n⟩ =
        some operator := by
      simp [Prototype.operator?, Prototype.toList_binaryName]
    refine ⟨⟨before.entries.insert operator n⟩, ?_, ?_, fun symbol => ?_⟩
    · simp only [installOperator, hoperator]
      exact if_pos ⟨hleast, hgreatest⟩
    · simp only [removeOperator, hoperator]
      exact congrArg OperatorTable.mk (Dictionary.restore_insert ..)
    · rw [OperatorTable.lookup, Dictionary.lookup_insert, Prototype.precedenceOf?]
      simp only [Prototype.binaryName_inj]
      split
      · rfl
      · rfl

/-- The function behind an operator of precedence `n`: it has a body and two parameters. -/
structure Implemented (program : Ssa.Program) (symbol : Char) (n : Nat) : Prop where
  visible : Token.isOperatorChar symbol
  least_le : least ≤ n
  le_greatest : n ≤ greatest
  function : ∃ f, program.find? (binaryName symbol) = some f ∧ f.body.isSome ∧ f.arity = 2

/-- The built-in operators have their precedences, and every other one has the precedence that it
was given last, and a function behind it. -/
structure Consistent (c : Compiler) (latest : Char → Option Nat) : Prop where
  builtin : ∀ entry ∈ OperatorTable.builtins, c.operators.lookup entry.1 = some entry.2
  defined : ∀ symbol, isBuiltin symbol = false → c.operators.lookup symbol = latest symbol
  implemented : ∀ symbol n, isBuiltin symbol = false → latest symbol = some n →
    Implemented c.program symbol n
  distinct : c.program.Distinct

/-- At the start only the built-in operators are known. -/
theorem consistent_start : Consistent .start fun _ => none where
  builtin := by decide
  defined := by
    intro symbol h
    simp only [isBuiltin, OperatorTable.builtins, List.any_cons, List.any_nil, Bool.or_false,
      Bool.or_eq_false_iff, decide_eq_false_iff_not] at h
    simp [Compiler.start, OperatorTable.seed, OperatorTable.builtins, OperatorTable.lookup,
      Dictionary.lookup, Dictionary.lookupIn, h]
  implemented := nofun
  distinct := List.nodup_nil

/-- An operator is implemented as long as there is a function of its name with a body and two
parameters. -/
theorem Implemented.of_find? {program after : Ssa.Program} {symbol : Char} {n : Nat}
    (h : Implemented program symbol n)
    (hkeeps : ∀ f, program.find? (binaryName symbol) = some f → f.body.isSome → f.arity = 2 →
      ∃ g, after.find? (binaryName symbol) = some g ∧ g.body.isSome ∧ g.arity = 2) :
    Implemented after symbol n := by
  obtain ⟨f, hfind, hbody, harity⟩ := h.function
  exact ⟨h.visible, h.least_le, h.le_greatest, hkeeps f hfind hbody harity⟩

/-- Declarations leave functions alone. -/
theorem Implemented.declare {program : Ssa.Program} {symbol : Char} {n : Nat}
    (h : Implemented program symbol n) (name : String) (parameters : List String) :
    Implemented (program.declare name parameters) symbol n := by
  refine h.of_find? fun f hfind hbody harity => ⟨f, ?_, hbody, harity⟩
  rw [Ssa.Program.find?_declare]
  split
  · rename_i heq
    rw [heq, hfind]
    rfl
  · exact hfind

/-- Declarations leave an operator with its function. -/
theorem Implemented.declareAll {program : Ssa.Program} {symbol : Char} {n : Nat}
    (h : Implemented program symbol n) (callees : List Prototype) :
    Implemented (declareAll program callees) symbol n := by
  induction callees generalizing program with
  | nil => exact h
  | cons callee rest ih => exact ih (h.declare callee.name callee.parameters)

/-- A function of two parameters that is stored under the name of an operator implements it. -/
theorem implemented_define {program : Ssa.Program} {symbol : Char} {n : Nat} {f : Ssa.Function}
    (hvisible : Token.isOperatorChar symbol) (hleast : least ≤ n) (hgreatest : n ≤ greatest)
    (hname : f.name = binaryName symbol) (hbody : f.body.isSome) (harity : f.arity = 2) :
    Implemented (program.define f) symbol n := by
  refine ⟨hvisible, hleast, hgreatest, f, ?_, hbody, harity⟩
  rw [Ssa.Program.find?_define, if_pos hname]

/-- A function that is stored under the name of an operator has to have a body and two
parameters. -/
theorem Implemented.define {program : Ssa.Program} {symbol : Char} {n : Nat}
    (h : Implemented program symbol n) {f : Ssa.Function}
    (hf : f.name = binaryName symbol → f.body.isSome ∧ f.arity = 2) :
    Implemented (program.define f) symbol n := by
  refine h.of_find? fun g hfind hbody harity => ?_
  rw [Ssa.Program.find?_define]
  split
  · rename_i hname
    exact ⟨f, rfl, hf hname⟩
  · exact ⟨g, hfind, hbody, harity⟩

/-- Other functions can be removed. -/
theorem Implemented.erase {program : Ssa.Program} {symbol : Char} {n : Nat}
    (h : Implemented program symbol n) (hdistinct : program.Distinct) {name : String}
    (hname : name ≠ binaryName symbol) : Implemented (program.erase name) symbol n := by
  refine h.of_find? fun g hfind hbody harity => ⟨g, ?_, hbody, harity⟩
  rw [hdistinct.find?_erase, if_neg hname, hfind]

/-- A body in which every operator is known has an implementation for each of them. -/
theorem Consistent.implements {latest : Char → Option Nat} (h : Consistent c latest)
    (hp : d.prototype.Spoken) {e : Expr} (he : e.Every (Expr.Knows c.operators)) :
    e.Every (c.surroundings d).Implements := by
  refine he.mono fun node hknown => ?_
  cases node with
  | binary operator left right =>
    cases hbuiltin : isBuiltin operator with
    | true => exact .inl hbuiltin
    | false =>
      obtain ⟨n, hn⟩ := Option.isSome_iff_exists.1 hknown
      have himplemented := h.implemented operator n hbuiltin (h.defined operator hbuiltin ▸ hn)
      obtain ⟨f, hfind, -, harity⟩ := himplemented.function
      refine .inr ?_
      unfold Surroundings.arity?
      split
      · rename_i hname
        exact congrArg some (hp.of_name_eq himplemented.visible hname.symm)
      · rw [surroundings, hfind]
        exact congrArg some harity
  | _ => trivial

/-- What a definition does to consistent operators and programs. If it fails, the cause lies in the
program text and nothing has changed; otherwise its signature is the latest one of its operator. -/
theorem Consistent.define {latest : Char → Option Nat} (h : Consistent c latest)
    (hp : d.prototype.Spoken) (hbody : d.body.Every (Expr.Knows c.operators)) :
    (∃ e, (c.define d).1 = .error e ∧ e.IsReportable ∧ Consistent (c.define d).2 latest) ∨
    ∃ f, (c.define d).1 = .ok f ∧ f.name = d.prototype.name ∧ Consistent (c.define d).2
      fun symbol => (d.prototype.precedenceOf? symbol).or (latest symbol) := by
  obtain ⟨table, hinstall, hremove, hlookup⟩ := installOperator_eq_ok hp c.operators
  obtain ⟨e, herror, -⟩ | ⟨table', e, htable, hlower, hdefine⟩ |
    ⟨table', lowered, htable, hlower, hdefine⟩ := define_cases c d
  · rw [hinstall] at herror
    cases herror
  · obtain rfl := Except.ok.inj (hinstall.symm.trans htable)
    refine .inl ⟨e, congrArg Prod.fst hdefine, ?_, ?_⟩
    · exact isReportable_of_lower_eq_error (h.implements hp hbody) hlower
    · rw [hdefine, hremove]
      exact ⟨h.builtin, h.defined, h.implemented, h.distinct⟩
  · obtain rfl := Except.ok.inj (hinstall.symm.trans htable)
    obtain ⟨t, -, rfl⟩ := lower_eq_ok_iff.1 hlower
    refine .inr ⟨_, congrArg Prod.fst hdefine, rfl, ?_⟩
    rw [hdefine]
    -- The new function may be behind an operator, and then its signature is that of one.
    have hfunction {symbol : Char} (hvisible : Token.isOperatorChar symbol)
        (hname : d.prototype.name = binaryName symbol) : d.prototype.arity = 2 :=
      hp.of_name_eq hvisible hname
    refine ⟨fun entry hentry => ?_, fun symbol hbuiltin => ?_, fun symbol n hbuiltin hn => ?_,
      (distinct_declareAll h.distinct _).define _⟩
    · rw [hlookup, h.builtin entry hentry]
      cases hprecedence : d.prototype.precedenceOf? entry.1 with
      | none => rfl
      | some n =>
        have hbuiltin := (hp.precedenceOf?_eq_some hprecedence).2.2.1
        rw [isBuiltin, List.any_eq_false] at hbuiltin
        exact absurd (decide_eq_true rfl) (hbuiltin entry hentry)
    · rw [hlookup, h.defined symbol hbuiltin]
    · cases hprecedence : d.prototype.precedenceOf? symbol with
      | none =>
        rw [hprecedence, Option.none_or] at hn
        have himplemented := h.implemented symbol n hbuiltin hn
        exact (himplemented.declareAll t.declarations).define fun hname =>
          ⟨rfl, hfunction himplemented.visible hname⟩
      | some m =>
        rw [hprecedence, Option.some_or, Option.some.injEq] at hn
        obtain ⟨hname, hvisible, -, hleast, hgreatest⟩ := hp.precedenceOf?_eq_some hprecedence
        subst hn
        exact implemented_define hvisible hleast hgreatest hname rfl (hfunction hvisible hname)

/-- A declaration changes nothing about operators. -/
theorem Consistent.declare {latest : Char → Option Nat} (h : Consistent c latest) (p : Prototype) :
    Consistent (c.declare p) latest where
  builtin := h.builtin
  defined := h.defined
  implemented := fun symbol n hbuiltin hn =>
    (h.implemented symbol n hbuiltin hn).declare p.name p.parameters
  distinct := h.distinct.declare p.name p.parameters

/-- A function that is behind no operator can be removed. -/
theorem Consistent.erase {latest : Char → Option Nat} (h : Consistent c latest) {name : String}
    (hname : ∀ symbol, name ≠ binaryName symbol) : Consistent (c.erase name) latest where
  builtin := h.builtin
  defined := h.defined
  implemented := fun symbol n hbuiltin hn =>
    (h.implemented symbol n hbuiltin hn).erase h.distinct (hname symbol)
  distinct := h.distinct.erase name

/-- What reading a statement makes sure of: signatures can be spelled and operators are known. -/
def Proper (table : OperatorTable) : Statement → Prop
  | .definition d => d.prototype.Spoken ∧ d.body.Every (Expr.Knows table)
  | .declaration _ => True
  | .evaluation body => body.Every (Expr.Knows table)

/-- The precedence that a statement gives to a symbol. -/
def precedenceOf? (symbol : Char) : Statement → Option Nat
  | .definition d => d.prototype.precedenceOf? symbol
  | _ => none

/-- What a statement does to consistent operators and programs. -/
theorem Consistent.compile {latest : Char → Option Nat} (h : Consistent c latest)
    {statement : Statement} (hproper : Proper c.operators statement) :
    (∃ e, (c.compile statement).1 = .error e ∧ e.IsReportable ∧
      Consistent (c.compile statement).2 latest) ∨
    ∃ f, (c.compile statement).1 = .ok f ∧
      (∀ body, statement = .evaluation body → f.name = Prototype.anonymousName) ∧
      Consistent (c.compile statement).2
        fun symbol => (precedenceOf? symbol statement).or (latest symbol) := by
  cases statement with
  | definition d =>
    obtain herror | ⟨f, hf, -, hafter⟩ := h.define hproper.1 hproper.2
    · exact .inl herror
    · exact .inr ⟨f, hf, nofun, hafter⟩
  | declaration p => exact .inr ⟨_, rfl, nofun, h.declare p⟩
  | evaluation body =>
    obtain herror | ⟨f, hf, hname, hafter⟩ := h.define (d := ⟨.anonymous, body⟩) .anonymous hproper
    · exact .inl herror
    · exact .inr ⟨f, hf, fun _ _ => hname, hafter⟩

end Compiler

end Kaleidoscope
