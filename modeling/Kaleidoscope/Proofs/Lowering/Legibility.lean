import Kaleidoscope.Proofs.Lowering.WellFormed
import Kaleidoscope.Proofs.Ssa.Clarity
import Kaleidoscope.Proofs.Syntax.Unambiguity

/-!
# Generated functions are legible

Parameters are copied into their slots before anything else is generated, and from then on every
value that is used has been computed. So if the names in an expression are words, the function that
is generated for it can be told from its listing.
-/

namespace Kaleidoscope

open Lexer (IsWord)
open Ssa (IsCallee)

/-- A word can name a callee. -/
theorem Ssa.isCallee_of_isWord {name : String} (h : IsWord name) : IsCallee name where
  parenthesis hmem := absurd (h.isAlphanum _ (List.mem_of_mem_dropLast hmem)) (by decide)
  newline := Ssa.oneLine_of_isAlphanum h.isAlphanum

/-- The function behind an operator is known by its name, whatever character the operator is. -/
theorem Ssa.isCallee_append_singleton {name : String} (h : IsWord name) {operator : Char}
    (hoperator : operator ≠ '\n') : IsCallee (name ++ String.singleton operator) where
  parenthesis hmem := by
    rw [String.toList_append, String.toList_singleton, List.dropLast_concat] at hmem
    exact absurd (h.isAlphanum _ hmem) (by decide)
  newline hmem := by
    rw [String.toList_append, String.toList_singleton, List.mem_append, List.mem_singleton] at hmem
    rcases hmem with hmem | heq
    · exact absurd (h.isAlphanum _ hmem) (by decide)
    · exact hoperator heq.symm

/-- So can the name of the function behind a prefix operator. -/
theorem Prototype.isCallee_unaryName {operator : Char} (h : operator ≠ '\n') :
    IsCallee (unaryName operator) :=
  Ssa.isCallee_append_singleton (by decide) h

/-- So can the name of the function behind a binary operator. -/
theorem Prototype.isCallee_binaryName {operator : Char} (h : operator ≠ '\n') :
    IsCallee (binaryName operator) :=
  Ssa.isCallee_append_singleton (by decide) h

namespace Ssa.Builder.Clear

variable {arity : Nat} {b : Builder}

/-- A new variable has a word for its name. A parameter may be its value if the numbers agree. -/
theorem introduce (h : b.Clear arity) {name : String} (hname : IsWord name) {value : ValueId}
    (hvalue : arity ≤ value.index ∨ value.index = b.slots.length) :
    (b.introduce name value).Clear arity :=
  (h.allocate hname).append hvalue

/-- What a condition computes is no parameter. -/
theorem test (h : b.Clear arity) {value : ValueId} (hvalue : arity ≤ value.index) :
    (b.test value).2.Clear arity ∧ arity ≤ (b.test value).1.index := by
  obtain ⟨hconstant, hzero⟩ := @assign _ _ h (.constant 0) trivial
  exact hconstant.assign ⟨hvalue, hzero⟩

/-- A variable is increased with computed values. -/
theorem increase (h : b.Clear arity) (slot : SlotId) {increment : ValueId}
    (hincrement : arity ≤ increment.index) : (b.increase slot increment).Clear arity := by
  obtain ⟨hload, hcurrent⟩ := @assign _ _ h (.load slot) trivial
  obtain ⟨hadd, hnext⟩ := @assign _ _ hload (.arithmetic .add _ increment) ⟨hcurrent, hincrement⟩
  exact hadd.append (.inl hnext)

/-- The labels of branches are words. -/
theorem addBranches (h : b.Clear arity) : b.addBranches.Clear arity := by
  have hthen : IsWord "then" := by decide
  have helse : IsWord "else" := by decide
  exact ((h.appendBlock hthen).appendBlock helse).appendBlock (by decide)

/-- The labels of loops are words. -/
theorem addLoop (h : b.Clear arity) : b.addLoop.Clear arity := by
  have hloop : IsWord "loop" := by decide
  exact (h.appendBlock hloop).appendBlock (by decide)

end Ssa.Builder.Clear

namespace Lowering

open Ssa (ValueId)

variable {env : Surroundings} {s t : State} {arity : Nat}

/-- An action that keeps a body clear and gives a value that is no parameter. -/
def KeepsClear (arity : Nat) (action : Lowering ValueId) : Prop :=
  ∀ {s t v}, Yields action s v t → s.builder.Clear arity → t.builder.Clear arity ∧ arity ≤ v.index

/-- An operation on numbered values keeps the code clear. -/
theorem keepsClear_build_assign (operation : Ssa.Operation) (h : operation.Numbered arity) :
    KeepsClear arity (build (·.assign operation)) := by
  intro s t v hyields hs
  obtain ⟨rfl, rfl⟩ := yields_build.1 hyields
  exact hs.assign h

/-- So does a binary operator. -/
theorem keepsClear_applyBinary {operator : Char} (hoperator : operator ≠ '\n') {left right : ValueId}
    (hleft : arity ≤ left.index) (hright : arity ≤ right.index) :
    KeepsClear arity (applyBinary env operator left right) := by
  unfold applyBinary
  split
  · exact keepsClear_build_assign (.arithmetic .add left right) ⟨hleft, hright⟩
  · exact keepsClear_build_assign (.arithmetic .subtract left right) ⟨hleft, hright⟩
  · exact keepsClear_build_assign (.arithmetic .multiply left right) ⟨hleft, hright⟩
  · intro s t v h hs
    obtain ⟨less, u, hless, h⟩ := yields_bind.1 h
    obtain ⟨hu, hvalue⟩ := keepsClear_build_assign (.compare .unorderedOrLess left right)
      ⟨hleft, hright⟩ hless hs
    exact keepsClear_build_assign (.widen less) hvalue h hu
  · intro s t v h hs
    obtain ⟨-, rfl, rfl⟩ := yields_callBinary h
    exact hs.call (Prototype.isCallee_binaryName hoperator)
      (List.forall_mem_cons.2 ⟨hleft, List.forall_mem_singleton.2 hright⟩)

/-- So does an optional part. -/
theorem keepsClear_expressionOr {constant : Float} {e : Option Expr}
    (h : ∀ e' ∈ e, KeepsClear arity (expression env e')) :
    KeepsClear arity (expressionOr env constant e) := by
  cases e with
  | none =>
    rw [expressionOr]
    exact keepsClear_build_assign (.constant constant) trivial
  | some e => exact h e rfl

/-- So do expressions in a row, and their values are numbered ones. -/
theorem clear_expressions {arguments : List Expr}
    (harguments : ∀ e ∈ arguments, KeepsClear arity (expression env e)) {values : List ValueId}
    (h : Yields (expressions env arguments) s values t) (hs : s.builder.Clear arity) :
    t.builder.Clear arity ∧ ∀ value ∈ values, arity ≤ value.index := by
  induction arguments generalizing s values with
  | nil =>
    obtain ⟨rfl, rfl⟩ := yields_pure.1 h
    exact ⟨hs, List.forall_mem_nil _⟩
  | cons first rest ih =>
    obtain ⟨v, u, vs, rfl, hfirst, hrest⟩ := yields_expressions_cons h
    obtain ⟨hkeeps, hkeepsRest⟩ := List.forall_mem_cons.1 harguments
    obtain ⟨hu, hv⟩ := hkeeps hfirst hs
    obtain ⟨ht, hvs⟩ := ih hkeepsRest hrest hu
    exact ⟨ht, List.forall_mem_cons.2 ⟨hv, hvs⟩⟩

/-- So do local variables whose names are words. -/
theorem clear_bindLocals {bindings : List (String × Option Expr)}
    (hnames : ∀ binding ∈ bindings, IsWord binding.1)
    (hbindings : ∀ binding ∈ bindings, ∀ e ∈ binding.2, KeepsClear arity (expression env e))
    (h : Yields (bindLocals env bindings) s () t) (hs : s.builder.Clear arity) :
    t.builder.Clear arity := by
  induction bindings generalizing s with
  | nil =>
    obtain ⟨-, rfl⟩ := yields_pure.1 h
    exact hs
  | cons binding rest ih =>
    obtain ⟨name, initial⟩ := binding
    obtain ⟨value, u, hvalue, hrest⟩ := yields_bindLocals_cons h
    obtain ⟨hname, hnamesRest⟩ := List.forall_mem_cons.1 hnames
    obtain ⟨hkeeps, hkeepsRest⟩ := List.forall_mem_cons.1 hbindings
    obtain ⟨hu, hv⟩ := keepsClear_expressionOr hkeeps hvalue hs
    exact ih hnamesRest hkeepsRest hrest (hu.introduce hname (.inl hv))

/-- Each parameter is stored in the slot with its own number. -/
theorem clear_bindParameters {index : Nat} {names : List String} (hnames : ∀ name ∈ names, IsWord name)
    (h : Yields (bindParameters index names) s () t) (hslots : s.builder.slots.length = index)
    (hs : s.builder.Clear arity) : t.builder.Clear arity := by
  induction names generalizing s index with
  | nil =>
    obtain ⟨-, rfl⟩ := yields_pure.1 h
    exact hs
  | cons name rest ih =>
    obtain ⟨hname, hrest⟩ := List.forall_mem_cons.1 hnames
    refine ih hrest (yields_bindParameters_cons h) ?_ (hs.introduce hname (.inr hslots.symm))
    rw [Ssa.Builder.length_slots_introduce, hslots]

/-- An expression that is spelled with words keeps a body clear. -/
theorem keepsClear_expression (env : Surroundings) (arity : Nat) {e : Expr} (h : e.Every Expr.Spelled) :
    KeepsClear arity (expression env e) := by
  induction h with
  | number =>
    intro s t v h hs
    obtain ⟨rfl, rfl⟩ := yields_number.1 h
    exact hs.assign trivial
  | var =>
    intro s t v h hs
    obtain ⟨slot, -, rfl, rfl⟩ := yields_var.1 h
    exact hs.assign trivial
  | unary hspelled _ ih =>
    intro s t v h hs
    obtain ⟨value, u, hoperand, -, rfl, rfl⟩ := yields_unary h
    obtain ⟨hu, hvalue⟩ := ih hoperand hs
    exact hu.call (Prototype.isCallee_unaryName hspelled.2) (List.forall_mem_singleton.2 hvalue)
  | @binary operator left right hspelled _ _ ihl ihr =>
    intro s t v h hs
    by_cases hop : operator = '='
    · subst hop
      obtain ⟨name, slot, u, -, hright, -, rfl⟩ := yields_assignment h
      obtain ⟨hu, hv⟩ := ihr hright hs
      exact ⟨hu.append (.inl hv), hv⟩
    · obtain ⟨x, a, y, b, hleft, hright, happly⟩ := yields_binary hop h
      obtain ⟨ha, hx⟩ := ihl hleft hs
      obtain ⟨hb, hy⟩ := ihr hright ha
      exact keepsClear_applyBinary hspelled.2 hx hy happly hb
  | call hspelled _ ih =>
    intro s t v h hs
    obtain ⟨values, u, harguments, -, rfl, rfl⟩ := yields_application h
    obtain ⟨hu, hvalues⟩ := clear_expressions ih harguments hs
    exact hu.call (Ssa.isCallee_of_isWord hspelled) hvalues
  | conditional _ _ _ _ ihc iht ihe =>
    intro s t v h hs
    obtain ⟨value, tested, x, left, y, right, htest, hleft, hright, rfl, rfl⟩ :=
      yields_conditional h
    obtain ⟨htested, hvalue⟩ := ihc htest hs
    obtain ⟨hchecked, hholds⟩ := htested.test hvalue
    obtain ⟨hleft', hx⟩ := iht hleft ((hchecked.addBranches.branchIf hholds _ _).moveTo _)
    obtain ⟨hright', hy⟩ := ihe hright ((hleft'.branch _).moveTo _)
    refine ((hright'.branch _).moveTo _).assign ?_
    exact List.forall_mem_cons.2 ⟨hx, List.forall_mem_singleton.2 hy⟩
  | loop hname _ _ _ _ ihs ihf ihstep ihb =>
    intro s t v h hs
    obtain ⟨value, started, x, a, y, b, z, c, hstart, hbody, hstep, hfinish, rfl, rfl⟩ := yields_loop h
    obtain ⟨hstarted, hvalue⟩ := ihs hstart hs
    have hintroduced := hstarted.introduce hname (.inl hvalue)
    obtain ⟨ha, -⟩ := ihb hbody ((hintroduced.addLoop.branch _).moveTo _)
    obtain ⟨hb, hincrement⟩ := keepsClear_expressionOr ihstep hstep ha
    obtain ⟨hc, hz⟩ := ihf hfinish (hb.increase _ hincrement)
    obtain ⟨hchecked, hholds⟩ := hc.test hz
    exact ((hchecked.branchIf hholds _ _).moveTo _).assign trivial
  | locals hspelled _ _ ihs ihb =>
    intro s t v h hs
    obtain ⟨bound, u, hbind, hbody, rfl⟩ := yields_locals h
    obtain ⟨hu, hv⟩ := ihb hbody (clear_bindLocals hspelled.2 ihs hbind hs)
    exact ⟨hu, hv⟩

/-- The body of a function is clear if it is spelled with words, and its parameters are. -/
theorem clear_function {body : Expr} (hparameters : ∀ name ∈ env.self.parameters, IsWord name)
    (hbody : body.Every Expr.Spelled) (h : Yields (function env body) (.start env.self) () t) :
    t.builder.Clear env.self.arity := by
  obtain ⟨bound, v, u, hbind, hyields, rfl⟩ := yields_function h
  have hbound : bound.builder.Clear env.self.arity :=
    clear_bindParameters hparameters hbind rfl (Ssa.Builder.clear_start _ _)
  obtain ⟨hu, hv⟩ := keepsClear_expression env _ hbody hyields hbound
  exact hu.terminate (List.forall_mem_singleton.2 hv)

end Lowering

/-- The name of the function can be told from its listing, and its parameters are words. -/
structure Prototype.Spelled (p : Prototype) : Prop where
  name : IsCallee p.name
  parameters : ∀ name ∈ p.parameters, IsWord name

/-- A function that is generated from words is legible. -/
theorem exists_legible_of_lower {env : Surroundings} {body : Expr} {lowered : Lowered}
    (hself : env.self.Spelled) (hbody : body.Every Expr.Spelled)
    (h : lower env body = .ok lowered) : ∃ generated, lowered.function.Legible generated := by
  obtain ⟨t, hyields, rfl⟩ := lower_eq_ok_iff.1 h
  have hwellFormed := Lowering.wellFormed_function hyields
  have hclear := Lowering.clear_function hself.parameters hbody hyields
  exact ⟨t.builder.body, rfl, hself.name, hself.parameters, hclear.slots,
    List.ne_nil_of_length_pos hwellFormed.entry, hwellFormed.named,
    fun block hblock => hwellFormed.showsBlock hblock (hclear.blocks block hblock)⟩

end Kaleidoscope
