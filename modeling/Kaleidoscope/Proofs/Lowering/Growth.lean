import Kaleidoscope.Proofs.Lowering.Steps
import Kaleidoscope.Proofs.Ssa.Growth
import Kaleidoscope.Proofs.Syntax.Induction

/-!
# What generation does to the builder

Every expression is a construct that begins in an open block and ends in an open block, all others
of its blocks being terminated. So when a function returns its value, each of its blocks is
terminated, and none has been terminated twice: a body that is generated is never rejected for its
form.
-/

namespace Kaleidoscope

namespace Ssa.Builder.Advances

variable {waiting : List BlockId} {a b : Builder}

/-- A construct goes on with an operation. -/
theorem assign (h : Advances waiting a b) (operation : Operation) :
    Advances waiting a (b.assign operation).2 :=
  h.appendValue _

/-- A construct goes on with a call. -/
theorem call (h : Advances waiting a b) (callee : String) (arguments : List ValueId) :
    Advances waiting a (b.call callee arguments).2 :=
  h.appendValue _

/-- A construct goes on by storing a value. -/
theorem store (h : Advances waiting a b) (slot : SlotId) (value : ValueId) :
    Advances waiting a (b.store slot value) :=
  h.append _

/-- A construct goes on with a condition. -/
theorem test (h : Advances waiting a b) (value : ValueId) : Advances waiting a (b.test value).2 :=
  (h.assign _).assign _

/-- A construct goes on with a new variable. -/
theorem introduce (h : Advances waiting a b) (name : String) (value : ValueId) :
    Advances waiting a (b.introduce name value) :=
  (h.allocate name).store _ _

/-- A construct goes on by increasing a variable. -/
theorem increase (h : Advances waiting a b) (slot : SlotId) (increment : ValueId) :
    Advances waiting a (b.increase slot increment) :=
  ((h.assign _).assign _).store _ _

/-- The three blocks of a conditional wait to be entered. -/
theorem addBranches (h : Continues a b) :
    Advances [⟨b.blocks.length⟩, ⟨b.blocks.length + 1⟩, ⟨b.blocks.length + 2⟩] a b.addBranches := by
  have := ((h.appendBlock "then").appendBlock "else").appendBlock "ifcont"
  simpa only [Builder.appendBlock, List.length_append, List.length_singleton, List.nil_append,
    List.cons_append, Builder.addBranches] using this

/-- The two blocks of a loop wait to be entered. -/
theorem addLoop (h : Continues a b) :
    Advances [⟨b.blocks.length⟩, ⟨b.blocks.length + 1⟩] a b.addLoop := by
  have := (h.appendBlock "loop").appendBlock "afterloop"
  simpa only [Builder.appendBlock, List.length_append, List.length_singleton, List.nil_append,
    List.cons_append, Builder.addLoop] using this

section Conditional

variable {tested left right : Builder} {branches jump jump' : Terminator}

/-- The first branch has been entered. -/
theorem enter_then (h : Continues a tested) (branches : Terminator) :
    Advances [⟨tested.blocks.length + 1⟩, ⟨tested.blocks.length + 2⟩] a
      ((tested.addBranches.terminate branches).moveTo ⟨tested.blocks.length⟩) :=
  h.addBranches.enter (by simp) branches

/-- The first branch begins in an empty block. -/
theorem fresh_then (h : Continues a tested) (branches : Terminator) :
    ((tested.addBranches.terminate branches).moveTo ⟨tested.blocks.length⟩).Fresh :=
  h.addBranches.fresh_enter branches

/-- The second branch has been entered. -/
theorem enter_else (h : Continues a tested)
    (hleft : Continues ((tested.addBranches.terminate branches).moveTo ⟨tested.blocks.length⟩) left)
    (jump : Terminator) :
    Advances [⟨tested.blocks.length + 2⟩] a
      ((left.terminate jump).moveTo ⟨tested.blocks.length + 1⟩) :=
  ((h.enter_then branches).trans hleft).enter (by simp) jump

/-- The second branch begins in an empty block. -/
theorem fresh_else (h : Continues a tested)
    (hleft : Continues ((tested.addBranches.terminate branches).moveTo ⟨tested.blocks.length⟩) left)
    (jump : Terminator) : ((left.terminate jump).moveTo ⟨tested.blocks.length + 1⟩).Fresh :=
  ((h.enter_then branches).trans hleft).fresh_enter jump

/-- The branches have met. -/
theorem enter_join (h : Continues a tested)
    (hleft : Continues ((tested.addBranches.terminate branches).moveTo ⟨tested.blocks.length⟩) left)
    (hright : Continues ((left.terminate jump).moveTo ⟨tested.blocks.length + 1⟩) right)
    (jump' : Terminator) :
    Continues a ((right.terminate jump').moveTo ⟨tested.blocks.length + 2⟩) :=
  ((h.enter_else hleft jump).trans hright).enter List.not_mem_nil jump'

/-- The branches meet in an empty block. -/
theorem fresh_join (h : Continues a tested)
    (hleft : Continues ((tested.addBranches.terminate branches).moveTo ⟨tested.blocks.length⟩) left)
    (hright : Continues ((left.terminate jump).moveTo ⟨tested.blocks.length + 1⟩) right)
    (jump' : Terminator) : ((right.terminate jump').moveTo ⟨tested.blocks.length + 2⟩).Fresh :=
  ((h.enter_else hleft jump).trans hright).fresh_enter jump'

end Conditional

section Loop

variable {started inner : Builder} {jump : Terminator}

/-- The body of a loop has been entered. -/
theorem enter_loop (h : Continues a started) (jump : Terminator) :
    Advances [⟨started.blocks.length + 1⟩] a
      ((started.addLoop.terminate jump).moveTo ⟨started.blocks.length⟩) :=
  h.addLoop.enter (by simp) jump

/-- The body of a loop begins in an empty block. -/
theorem fresh_loop (h : Continues a started) (jump : Terminator) :
    ((started.addLoop.terminate jump).moveTo ⟨started.blocks.length⟩).Fresh :=
  h.addLoop.fresh_enter jump

/-- The loop has been left. -/
theorem enter_after (h : Continues a started)
    (hinner : Continues ((started.addLoop.terminate jump).moveTo ⟨started.blocks.length⟩) inner)
    (branches : Terminator) :
    Continues a ((inner.terminate branches).moveTo ⟨started.blocks.length + 1⟩) :=
  ((h.enter_loop jump).trans hinner).enter List.not_mem_nil branches

/-- What follows a loop begins in an empty block. -/
theorem fresh_after (h : Continues a started)
    (hinner : Continues ((started.addLoop.terminate jump).moveTo ⟨started.blocks.length⟩) inner)
    (branches : Terminator) :
    ((inner.terminate branches).moveTo ⟨started.blocks.length + 1⟩).Fresh :=
  ((h.enter_loop jump).trans hinner).fresh_enter branches

end Loop

end Ssa.Builder.Advances

namespace Lowering

open Ssa (Builder Block SlotId ValueId)
open Ssa.Builder (Advances Continues)

variable {env : Surroundings} {s t : State}

/-- The value has been computed by the time the builder is the given one. -/
def Computed (b : Builder) (v : ValueId) : Prop := v.index < b.valueCount

/-- What has been computed stays computed. -/
theorem Computed.mono {b c : Builder} {v : ValueId} (h : Computed b v) (hgrows : b.Grows c) :
    Computed c v :=
  Nat.lt_of_lt_of_le h hgrows.valueCount

/-- An action that gives a value is a construct in the end of which the value is computed. -/
def Computes (action : Lowering ValueId) : Prop :=
  ∀ s t v, Yields action s v t → s.builder.Open →
    Continues s.builder t.builder ∧ Computed t.builder v

/-- What computes a value goes on with the construct. -/
theorem Computes.continues {action : Lowering ValueId} {v : ValueId} (haction : Computes action)
    (h : Yields action s v t) (hopen : s.builder.Open) : Continues s.builder t.builder :=
  (haction s t v h hopen).1

/-- The value that it computes is there afterwards. -/
theorem Computes.computed {action : Lowering ValueId} {v : ValueId} (haction : Computes action)
    (h : Yields action s v t) (hopen : s.builder.Open) : Computed t.builder v :=
  (haction s t v h hopen).2

/-- The value that a new instruction computes has been computed. -/
theorem computed_appendValue (b : Builder) (instruction : ValueId → Ssa.Instruction) :
    Computed (b.appendValue instruction).2 (b.appendValue instruction).1 :=
  Nat.lt_succ_self _

/-- An operation computes a value. -/
theorem computes_build_assign (operation : Ssa.Operation) :
    Computes (build (·.assign operation)) := by
  intro s t v h hopen
  obtain ⟨rfl, rfl⟩ := yields_build.1 h
  exact ⟨(Advances.refl hopen).assign operation, computed_appendValue _ _⟩

/-- So does a binary operator. -/
theorem computes_applyBinary (operator : Char) (left right : ValueId) :
    Computes (applyBinary env operator left right) := by
  unfold applyBinary
  split
  · exact computes_build_assign _
  · exact computes_build_assign _
  · exact computes_build_assign _
  · intro s t v h hopen
    obtain ⟨less, u, hless, h⟩ := yields_bind.1 h
    have hu := (computes_build_assign _).continues hless hopen
    have ht := computes_build_assign _ _ _ _ h hu.isOpen
    exact ⟨hu.trans ht.1, ht.2⟩
  · intro s t v h hopen
    obtain ⟨-, rfl, rfl⟩ := yields_callBinary h
    exact ⟨(Advances.refl hopen).call _ _, computed_appendValue _ _⟩

/-- Optional expressions are constructs if the expression is. -/
theorem computes_expressionOr {constant : Float} {e : Option Expr}
    (h : ∀ e' ∈ e, Computes (expression env e')) : Computes (expressionOr env constant e) := by
  cases e with
  | none => simpa only [expressionOr] using computes_build_assign (.constant constant)
  | some e => simpa only [expressionOr] using h e rfl

/-- A list of expressions is a construct in the end of which every value is computed. -/
theorem continues_expressions {arguments : List Expr}
    (harguments : ∀ e ∈ arguments, Computes (expression env e)) {values : List ValueId}
    (h : Yields (expressions env arguments) s values t) (hopen : s.builder.Open) :
    Continues s.builder t.builder ∧ ∀ v ∈ values, Computed t.builder v := by
  induction arguments generalizing s values with
  | nil =>
    obtain ⟨rfl, rfl⟩ := yields_pure.1 h
    exact ⟨.refl hopen, by simp⟩
  | cons first rest ih =>
    obtain ⟨v, u, vs, rfl, hfirst, hrest⟩ := yields_expressions_cons h
    obtain ⟨hu, hv⟩ := harguments first List.mem_cons_self _ _ _ hfirst hopen
    obtain ⟨hw, hvs⟩ := ih (fun e he => harguments e (List.mem_cons_of_mem _ he)) hrest hu.isOpen
    refine ⟨hu.trans hw, fun v' hmem => ?_⟩
    rcases List.mem_cons.mp hmem with rfl | hmem
    · exact hv.mono hw.grows
    · exact hvs v' hmem

/-- Local variables are part of the construct that binds them. -/
theorem continues_bindLocals {bindings : List (String × Option Expr)}
    (hbindings : ∀ binding ∈ bindings, ∀ e ∈ binding.2, Computes (expression env e))
    (h : Yields (bindLocals env bindings) s () t) (hopen : s.builder.Open) :
    Continues s.builder t.builder := by
  induction bindings generalizing s with
  | nil =>
    obtain ⟨-, rfl⟩ := yields_pure.1 h
    exact .refl hopen
  | cons binding rest ih =>
    obtain ⟨name, initial⟩ := binding
    obtain ⟨value, u, hvalue, hrest⟩ := yields_bindLocals_cons h
    have hu := (computes_expressionOr (hbindings _ List.mem_cons_self)).continues hvalue hopen
    have hintroduced := hu.introduce name value
    exact hintroduced.trans
      (ih (fun b hb => hbindings b (List.mem_cons_of_mem _ hb)) hrest hintroduced.isOpen)

/-- Parameters are part of the construct that binds them. -/
theorem continues_bindParameters {index : Nat} {names : List String}
    (h : Yields (bindParameters index names) s () t) (hopen : s.builder.Open) :
    Continues s.builder t.builder := by
  induction names generalizing s index with
  | nil =>
    obtain ⟨-, rfl⟩ := yields_pure.1 h
    exact .refl hopen
  | cons name rest ih =>
    have hintroduced := (Advances.refl hopen).introduce name ⟨index⟩
    exact hintroduced.trans (ih (yields_bindParameters_cons h) hintroduced.isOpen)

/-- What a round of a loop does one after the other is a construct: body, step, increase, end
test. -/
theorem Computes.round {body step finish : Lowering ValueId} {slot : SlotId} {x y z : ValueId}
    {a b c : State} (hbody : Computes body) (hstep : Computes step) (hfinish : Computes finish)
    (hx : Yields body s x a) (hy : Yields step a y b)
    (hz : Yields finish { b with builder := b.builder.increase slot y } z c)
    (hopen : s.builder.Open) : Continues s.builder (c.builder.test z).2 := by
  have ha := hbody.continues hx hopen
  have hb := (ha.trans (hstep.continues hy ha.isOpen)).increase slot y
  exact (hb.trans (hfinish.continues hz hb.isOpen)).test z

/-- Every expression is a construct in the end of which its value is computed. -/
theorem computes_expression (env : Surroundings) (e : Expr) : Computes (expression env e) := by
  induction e with
  | number value =>
    intro s t v h hopen
    obtain ⟨rfl, rfl⟩ := yields_number.1 h
    exact ⟨(Advances.refl hopen).assign _, computed_appendValue _ _⟩
  | var name =>
    intro s t v h hopen
    obtain ⟨slot, -, rfl, rfl⟩ := yields_var.1 h
    exact ⟨(Advances.refl hopen).assign _, computed_appendValue _ _⟩
  | unary operator operand ih =>
    intro s t v h hopen
    obtain ⟨value, u, hoperand, -, rfl, rfl⟩ := yields_unary h
    exact ⟨(ih.continues hoperand hopen).call _ _, computed_appendValue _ _⟩
  | binary operator left right ihl ihr =>
    intro s t v h hopen
    by_cases hop : operator = '='
    · subst hop
      obtain ⟨name, slot, u, -, hright, -, rfl⟩ := yields_assignment h
      have hv := ihr.computed hright hopen
      exact ⟨(ihr.continues hright hopen).store slot v, hv⟩
    · obtain ⟨x, a, y, b, hleft, hright, happly⟩ := yields_binary hop h
      have ha := ihl.continues hleft hopen
      have hb := ha.trans (ihr.continues hright ha.isOpen)
      obtain ⟨ht, hv⟩ := computes_applyBinary operator x y _ _ _ happly hb.isOpen
      exact ⟨hb.trans ht, hv⟩
  | call callee arguments ih =>
    intro s t v h hopen
    obtain ⟨values, u, harguments, -, rfl, rfl⟩ := yields_application h
    exact ⟨(continues_expressions ih harguments hopen).1.call _ _, computed_appendValue _ _⟩
  | conditional test consequent alternative ihc iht ihe =>
    intro s t v h hopen
    obtain ⟨value, tested, x, left, y, right, htest, hleft, hright, rfl, rfl⟩ :=
      yields_conditional h
    have htested := (ihc.continues htest hopen).test value
    have hx := iht.continues hleft (htested.fresh_then _).isOpen
    have hy := ihe.continues hright (htested.fresh_else hx _).isOpen
    exact ⟨(htested.enter_join hx hy _).assign _, computed_appendValue _ _⟩
  | loop name start finish step body ihs ihf ihstep ihb =>
    intro s t v h hopen
    obtain ⟨value, started, x, a, y, b, z, c, hstart, hbody, hstep, hfinish, rfl, rfl⟩ :=
      yields_loop h
    have hstarted := (ihs.continues hstart hopen).introduce name value
    have hround := ihb.round (computes_expressionOr ihstep) ihf hbody hstep hfinish
      (hstarted.fresh_loop _).isOpen
    exact ⟨(hstarted.enter_after hround _).assign _, computed_appendValue _ _⟩
  | locals bindings body ihs ihb =>
    intro s t v h hopen
    obtain ⟨bound, u, hbind, hbody, rfl⟩ := yields_locals h
    have hbound := continues_bindLocals ihs hbind hopen
    have hu := ihb.continues hbody hbound.isOpen
    have hv := ihb.computed hbody hbound.isOpen
    exact ⟨hbound.trans hu, hv⟩

/-- One round of a loop is a construct. -/
theorem continues_round {body finish : Expr} {step : Option Expr} {slot : SlotId} {x y z : ValueId}
    {a b c : State} (hx : Yields (expression env body) s x a)
    (hy : Yields (expressionOr env 1 step) a y b)
    (hz : Yields (expression env finish) { b with builder := b.builder.increase slot y } z c)
    (hopen : s.builder.Open) : Continues s.builder (c.builder.test z).2 :=
  (computes_expression env body).round (computes_expressionOr fun e _ => computes_expression env e)
    (computes_expression env finish) hx hy hz hopen

/-- A construct that begins with the function and ends with its return passes the final check. -/
theorem finish_terminate {name : String} {parameters : List String} {b : Builder}
    (h : Continues (.start name parameters) b) (terminator : Ssa.Terminator) :
    (b.terminate terminator).finish =
      .ok ⟨name, parameters, some (b.terminate terminator).body⟩ := by
  have hover : (b.terminate terminator).overterminated = none :=
    (h.isOpen.overterminated_terminate terminator).trans h.overterminated
  have hfind : (b.terminate terminator).blocks.find? (·.terminator.isNone) = none := by
    rw [List.find?_eq_none]
    intro block hmem hnone
    obtain ⟨i, hi⟩ := List.mem_iff_getElem?.mp hmem
    rw [Ssa.Builder.terminate_blocks] at hi
    split at hi
    · obtain ⟨_, -, rfl⟩ := Option.map_eq_some_iff.mp hi
      cases hnone
    · rename_i hcurrent
      -- Before the construct began there was the entry block alone, and that is where it began.
      have hnew : i = (Builder.start name parameters).current.index ∨
          (Builder.start name parameters).blocks.length ≤ i := Nat.eq_zero_or_pos i
      have hsome := h.closed hi (Ne.symm hcurrent) List.not_mem_nil hnew
      rw [Option.isNone_iff_eq_none] at hnone
      rw [hnone] at hsome
      cases hsome
  have hname : (b.terminate terminator).name = name := h.grows.name
  have hparameters : (b.terminate terminator).parameters = parameters := h.grows.parameters
  rw [Builder.finish, hover]
  simp only [hfind, hname, hparameters, Builder.body]

/-- A function that is generated passes the final check. -/
theorem finish_function {body : Expr} (h : Yields (function env body) (.start env.self) () t) :
    t.builder.finish = .ok ⟨env.self.name, env.self.parameters, some t.builder.body⟩ := by
  obtain ⟨bound, v, u, hbind, hbody, rfl⟩ := yields_function h
  have hbound := continues_bindParameters hbind (Ssa.Builder.fresh_start _ _).isOpen
  have hcontinues := hbound.trans ((computes_expression env body).continues hbody hbound.isOpen)
  exact finish_terminate hcontinues (.ret v)

end Lowering

/-- Generation succeeds exactly if it succeeds before the final check. -/
theorem lower_eq_ok_iff {env : Surroundings} {body : Expr} {lowered : Lowered} :
    lower env body = .ok lowered ↔
      ∃ t, Lowering.Yields (Lowering.function env body) (.start env.self) () t ∧
        lowered = ⟨⟨env.self.name, env.self.parameters, some t.builder.body⟩, t.declarations⟩ := by
  unfold lower
  constructor
  · intro h
    split at h
    · cases h
    · rename_i state hrun
      rw [Lowering.finish_function hrun] at h
      cases h
      exact ⟨state, hrun, rfl⟩
  · rintro ⟨t, hrun, rfl⟩
    unfold Lowering.Yields at hrun
    rw [hrun]
    simp only [Lowering.finish_function hrun]

/-- A generated function has the signature that it is generated for. -/
theorem signature_of_lower_eq_ok {env : Surroundings} {body : Expr} {lowered : Lowered}
    (h : lower env body = .ok lowered) : lowered.function.name = env.self.name ∧
      lowered.function.arity = env.self.arity := by
  obtain ⟨t, -, rfl⟩ := lower_eq_ok_iff.1 h
  exact ⟨rfl, rfl⟩

/-- Generation fails exactly if it fails before the final check. -/
theorem lower_eq_error_iff {env : Surroundings} {body : Expr} {e : CompileError} :
    lower env body = .error e ↔
      ∃ t, (Lowering.function env body).run.run (.start env.self) = (.error e, t) := by
  unfold lower
  constructor
  · intro h
    split at h
    · rename_i e' t hrun
      cases h
      exact ⟨t, hrun⟩
    · rename_i state hrun
      rw [Lowering.finish_function hrun] at h
      cases h
  · rintro ⟨t, hrun⟩
    rw [hrun]

end Kaleidoscope
