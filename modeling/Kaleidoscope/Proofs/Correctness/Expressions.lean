import Kaleidoscope.Proofs.Correctness.Agreement
import Kaleidoscope.Proofs.Lowering.Scopes

/-!
# Generated code does what expressions mean

The code of an expression is followed by induction on the expression. Calls are left open: it is
assumed that the machine realizes them where they are nested as deeply as here.
-/

namespace Kaleidoscope

open Evaluation
open Machine (Frame Suspended Value)
open Machine.Frame (Keeps)
open Ssa (Builder Operation Program ValueId)
open Ssa.Builder (Advances Continues)

/-- The machine realizes calls from invocations that are nested `depth` deep: the caller goes on
with the value in the register that the call is for. -/
def RealizesCalls (m : Machine) (p : Program) (rounds depth : Nat) (call : Caller) : Prop :=
  ∀ (f : Frame) (callers : List Suspended) (rest : List Ssa.Instruction) (target : ValueId)
    (callee : String) (arguments : List ValueId) (values : List Float) (memory : Memory),
    callers.length = depth → f.pending = .call target callee arguments :: rest →
    arguments.mapM f.number = .ok values → target.index < f.registers.size →
    Realizes m p rounds ⟨f, callers⟩ memory (call callee values) fun x cells next =>
      cells = memory.cells ∧ ∃ g, ({ f with pending := rest } : Frame).assign target (.number x) =
        .ok g ∧ next = ⟨g, callers⟩

/-- Where the machine is when it has computed the value of a construct that began in `f`. -/
def Arrives (final : Builder) (callers : List Suspended) (layout : Layout) (count : Nat) (f : Frame)
    (b : Builder) (scope : Scope) (v : ValueId) (x : Float) (cells : List Cell)
    (next : Machine.State) : Prop :=
  ∃ g, next = ⟨g, callers⟩ ∧ Agrees final layout b scope g cells ∧ g.Holds v (.number x) ∧
    Keeps count f g

/-- Where the machine is between two parts of a construct that began in `f`. -/
def Stands (final : Builder) (callers : List Suspended) (layout : Layout) (count : Nat) (f : Frame)
    (b : Builder) (scope : Scope) (cells : List Cell) (next : Machine.State) : Prop :=
  ∃ g, next = ⟨g, callers⟩ ∧ Agrees final layout b scope g cells ∧ Keeps count f g

/-- A construct may have begun earlier. -/
theorem Arrives.before {final b : Builder} {callers : List Suspended} {layout : Layout}
    {count fewer : Nat} {f g : Frame} {scope : Scope} {v : ValueId} {x : Float} {cells : List Cell}
    {next : Machine.State} (h : Arrives final callers layout count g b scope v x cells next)
    (hkeeps : Keeps fewer f g) (hle : fewer ≤ count) :
    Arrives final callers layout fewer f b scope v x cells next := by
  obtain ⟨last, rfl, hagrees, hx, hlast⟩ := h
  exact ⟨last, rfl, hagrees, hx, hkeeps.trans (hlast.mono hle)⟩

namespace Lowering

/-- The code that an action generates realizes an evaluation, wherever it is part of a function. -/
def Implements (m : Machine) (p : Program) (rounds : Nat) (final : Builder)
    (callers : List Suspended) (action : Lowering ValueId) (evaluation : Evaluation Float) : Prop :=
  ∀ {layout s v t f memory}, Yields action s v t → t.builder.Grows final →
    Agrees final layout s.builder s.scope f memory.cells →
    Realizes m p rounds ⟨f, callers⟩ memory evaluation
      (Arrives final callers layout s.builder.valueCount f t.builder t.scope v)

variable {m : Machine} {p : Program} {rounds : Nat} {final : Builder} {callers : List Suspended}
  {call : Caller} {env : Surroundings} {s t : State} {layout : Layout} {f : Frame} {memory : Memory}

/-- A call is executed. -/
theorem realizes_call (hcalls : RealizesCalls m p rounds callers.length call) {b : Builder}
    {scope : Scope} (h : Agrees final layout b scope f memory.cells) {callee : String}
    {vs : List ValueId} {xs : List Float} (hgrows : (b.call callee vs).2.Grows final)
    (hvs : List.Forall₂ (fun v x => f.Holds v (.number x)) vs xs) :
    Realizes m p rounds ⟨f, callers⟩ memory (call callee xs)
      (Arrives final callers layout b.valueCount f (b.call callee vs).2 scope
        (b.call callee vs).1) := by
  obtain ⟨rest, hpending, -⟩ := h.position.next_value hgrows
  have hlt : b.valueCount < f.registers.size := by
    rw [h.position.registers]
    exact hgrows.valueCount
  refine (hcalls f callers rest _ callee vs xs memory rfl hpending
    (Frame.mapM_number_eq hvs) hlt).mono ?_
  rintro x _ _ ⟨rfl, g, hassign, rfl⟩
  obtain ⟨rest', g', hpending', hassign', hat, hx, hkeeps, hslots⟩ :=
    h.position.assign hgrows (.number x)
  obtain rfl : rest = rest' := List.tail_eq_of_cons_eq (hpending.symm.trans hpending')
  obtain rfl : g = g' := Except.ok.inj (hassign.symm.trans hassign')
  exact ⟨g, rfl, h.move (h.isOpen.appendValue _) hat List.prefix_rfl (fun _ => rfl) hslots, hx,
    hkeeps⟩

/-- An operation whose value is a number is executed. -/
theorem realizes_assign {b : Builder} {scope : Scope}
    (h : Agrees final layout b scope f memory.cells) {operation : Operation} {x : Float}
    (hgrows : (b.assign operation).2.Grows final) (hx : f.evaluate operation = .ok (.number x)) :
    Realizes m p rounds ⟨f, callers⟩ memory (pure x)
      (Arrives final callers layout b.valueCount f (b.assign operation).2 scope
        (b.assign operation).1) := by
  obtain ⟨g, hreaches, hg, hholds, hkeeps⟩ := h.assign m p callers hgrows hx
  exact .of_reaches hreaches (.pure ⟨g, rfl, hg, hholds, hkeeps⟩)

/-- A binary operator other than assignment is applied. -/
theorem realizes_applyBinary (hcalls : RealizesCalls m p rounds callers.length call)
    {operator : Char} {left right v : ValueId} {x y : Float}
    (h : Yields (applyBinary env operator left right) s v t) (hgrows : t.builder.Grows final)
    (hagrees : Agrees final layout s.builder s.scope f memory.cells)
    (hx : f.Holds left (.number x)) (hy : f.Holds right (.number y)) :
    Realizes m p rounds ⟨f, callers⟩ memory (apply call operator x y)
      (Arrives final callers layout s.builder.valueCount f t.builder t.scope v) := by
  have harithmetic (op : Ssa.Arithmetic)
      (h : Yields (build (·.assign (.arithmetic op left right))) s v t) :
      Realizes m p rounds ⟨f, callers⟩ memory (pure (Frame.calculate op x y))
        (Arrives final callers layout s.builder.valueCount f t.builder t.scope v) := by
    obtain ⟨rfl, rfl⟩ := yields_build.1 h
    exact realizes_assign hagrees hgrows (Frame.evaluate_arithmetic hx hy op)
  unfold applyBinary at h
  split at h
  · exact harithmetic .add h
  · exact harithmetic .subtract h
  · exact harithmetic .multiply h
  · obtain ⟨less, u, hless, hwiden⟩ := yields_bind.1 h
    have hopen := ((computes_build_assign _).continues hless hagrees.isOpen).isOpen
    have hcompared : u.builder.Grows final :=
      ((computes_build_assign _).continues hwiden hopen).grows.trans hgrows
    obtain ⟨rfl, rfl⟩ := yields_build.1 hless
    obtain ⟨rfl, rfl⟩ := yields_build.1 hwiden
    have hcompare := Frame.evaluate_compare hx hy .unorderedOrLess
    rw [compare_unorderedOrLess] at hcompare
    obtain ⟨g, hreaches, hg, htruth, hkeeps⟩ := hagrees.assign m p callers hcompared hcompare
    refine .of_reaches hreaches ?_
    exact (realizes_assign hg hgrows (Frame.evaluate_widen htruth)).mono
      fun _ _ _ harrives => harrives.before hkeeps (Nat.le_succ _)
  · rename_i hadd hsubtract hmultiply hless
    obtain ⟨-, rfl, rfl⟩ := yields_callBinary h
    have happly : apply call operator x y = call (Prototype.binaryName operator) [x, y] := by
      unfold apply
      split <;> trivial
    rw [happly]
    exact realizes_call hcalls hagrees hgrows (.cons hx (.cons hy .nil))

/-- Arguments are computed. -/
theorem realizes_expressions {arguments : List Expr} {vs : List ValueId}
    (himplements : ∀ e ∈ arguments,
      Implements m p rounds final callers (expression env e) (evaluate rounds call e))
    (h : Yields (expressions env arguments) s vs t) (hgrows : t.builder.Grows final)
    (hagrees : Agrees final layout s.builder s.scope f memory.cells) :
    Realizes m p rounds ⟨f, callers⟩ memory (evaluateAll rounds call arguments)
      fun xs cells next => ∃ g, next = ⟨g, callers⟩ ∧
        Agrees final layout t.builder t.scope g cells ∧
        List.Forall₂ (fun v x => g.Holds v (.number x)) vs xs ∧ Keeps s.builder.valueCount f g := by
  induction arguments generalizing s f memory vs with
  | nil =>
    obtain ⟨rfl, rfl⟩ := yields_pure.1 h
    rw [evaluateAll]
    exact .pure ⟨f, rfl, hagrees, .nil, .refl _ _⟩
  | cons first rest ih =>
    obtain ⟨v, u, vs, rfl, hfirst, hrest⟩ := yields_expressions_cons h
    rw [List.forall_mem_cons] at himplements
    obtain ⟨hu, hv⟩ := computes_expression env first s u v hfirst hagrees.isOpen
    have ht := (continues_expressions (fun e _ => computes_expression env e) hrest hu.isOpen).1
    rw [evaluateAll]
    refine (himplements.1 hfirst (ht.grows.trans hgrows) hagrees).bind ?_
    rintro x after _ ⟨g, rfl, hg, hx, hkeeps⟩
    refine (ih himplements.2 hrest hg).bind ?_
    rintro xs after' _ ⟨g', rfl, hg', hxs, hkeeps'⟩
    exact .pure ⟨g', rfl, hg', .cons (hx.of_keeps hv hkeeps') hxs,
      hkeeps.trans (hkeeps'.mono hu.grows.valueCount)⟩

/-- An optional expression is computed, or else the constant. -/
theorem implements_expressionOr {constant : Float} {e : Option Expr}
    (himplements : ∀ e' ∈ e,
      Implements m p rounds final callers (expression env e') (evaluate rounds call e')) :
    Implements m p rounds final callers (expressionOr env constant e)
      (evaluateOr rounds call constant e) := by
  intro layout s v t f memory h hgrows hagrees
  cases e with
  | none =>
    rw [expressionOr, yields_build] at h
    obtain ⟨rfl, rfl⟩ := h
    rw [evaluateOr]
    exact realizes_assign hagrees hgrows rfl
  | some e =>
    rw [expressionOr] at h
    rw [evaluateOr]
    exact himplements e rfl h hgrows hagrees

/-- Local variables are introduced. -/
theorem realizes_bindLocals {bindings : List (String × Option Expr)}
    (himplements : ∀ binding ∈ bindings, ∀ e ∈ binding.2,
      Implements m p rounds final callers (expression env e) (evaluate rounds call e))
    (h : Yields (bindLocals env bindings) s () t) (hgrows : t.builder.Grows final)
    (hagrees : Agrees final layout s.builder s.scope f memory.cells) :
    Realizes m p rounds ⟨f, callers⟩ memory (bindAll rounds call bindings)
      fun _ cells next => ∃ g inner, next = ⟨g, callers⟩ ∧
        Agrees final (inner ++ layout) t.builder t.scope g cells ∧
        Keeps s.builder.valueCount f g := by
  induction bindings generalizing s f memory layout with
  | nil =>
    obtain ⟨-, rfl⟩ := yields_pure.1 h
    rw [bindAll]
    exact .pure ⟨f, [], rfl, hagrees, .refl _ _⟩
  | cons binding rest ih =>
    obtain ⟨name, initial⟩ := binding
    obtain ⟨v, u, hvalue, hrest⟩ := yields_bindLocals_cons h
    rw [List.forall_mem_cons] at himplements
    have hu := (computes_expressionOr fun e _ => computes_expression env e).continues hvalue
      hagrees.isOpen
    have hintroduced := (Advances.refl hu.isOpen).introduce name v
    have hfinal := (continues_bindLocals (fun _ _ e _ => computes_expression env e) hrest
      hintroduced.isOpen).grows.trans hgrows
    rw [bindAll]
    refine (implements_expressionOr himplements.1 hvalue
      (hintroduced.grows.trans hfinal) hagrees).bind ?_
    rintro x after _ ⟨g, rfl, hg, hx, hkeeps⟩
    obtain ⟨g', hreaches, hg', hregisters⟩ := hg.introduce m p callers name hfinal hx
    refine .of_reaches hreaches (.bind_of_run (run_introduce name x after) ?_)
    refine (ih himplements.2 hrest hg').mono ?_
    rintro _ _ _ ⟨last, inner, rfl, hlast, hkeeps'⟩
    have hsame : Keeps u.builder.valueCount g g' := .congr hregisters
    refine ⟨last, inner ++ [(name, ⟨u.builder.slots.length⟩)], rfl, ?_,
      hkeeps.trans ((hsame.trans hkeeps').mono hu.grows.valueCount)⟩
    rwa [List.append_assoc]

/-- The blocks in which the branches of a conditional end are different ones. -/
theorem ends_ne {checked left right : Builder} {branches jump : Ssa.Terminator}
    (hleft : Continues
      ((checked.addBranches.terminate branches).moveTo ⟨checked.blocks.length⟩) left)
    (hright : Continues
      ((left.terminate jump).moveTo ⟨checked.blocks.length + 1⟩) right) :
    left.current ≠ right.current := by
  intro heq
  have hindex := congrArg Ssa.BlockId.index heq
  have hlt := hleft.isOpen.lt_length
  have hlength : ((checked.addBranches.terminate branches).moveTo
      ⟨checked.blocks.length⟩).blocks.length = checked.blocks.length + 3 := by
    simp [Builder.moveTo, Builder.terminate, Builder.addBranches, Builder.appendBlock]
  have hlength' : ((left.terminate jump).moveTo ⟨checked.blocks.length + 1⟩).blocks.length =
      left.blocks.length := by
    simp [Builder.moveTo, Builder.terminate]
  have hl := hleft.current
  have hr := hright.current
  rw [hlength] at hl
  rw [hlength'] at hr
  rcases hl with hl | hl
  · have hl := congrArg Ssa.BlockId.index hl
    rcases hr with hr | hr
    · have hr := congrArg Ssa.BlockId.index hr
      simp only [Builder.moveTo] at hl hr
      omega
    · omega
  · rcases hr with hr | hr
    · have hr := congrArg Ssa.BlockId.index hr
      simp only [Builder.moveTo] at hr
      omega
    · omega

/-- A conditional is implemented by its branches, whichever of them is taken. -/
theorem implements_conditional {test consequent alternative : Expr}
    (htest : Implements m p rounds final callers (expression env test)
      (evaluate rounds call test))
    (hconsequent : Implements m p rounds final callers (expression env consequent)
      (evaluate rounds call consequent))
    (halternative : Implements m p rounds final callers (expression env alternative)
      (evaluate rounds call alternative)) :
    Implements m p rounds final callers
      (expression env (.conditional test consequent alternative))
      (evaluate rounds call (.conditional test consequent alternative)) := by
  intro layout s v t f memory h hgrows hagrees
  obtain ⟨value, tested, x, left, y, right, hyields, hleft, hright, rfl, rfl⟩ :=
    yields_conditional h
  have hscope := hleft.scope_eq (keepsScope_expression env consequent)
  have hscope' := hright.scope_eq (keepsScope_expression env alternative)
  obtain ⟨htested, hvalue⟩ := computes_expression env test _ _ _ hyields hagrees.isOpen
  have hchecked := (Advances.refl htested.isOpen).test value
  have hbranches := (Advances.refl hchecked.isOpen).addBranches
  have hthen := hchecked.fresh_then (.branchIf (tested.builder.test value).1
    ⟨(tested.builder.test value).2.blocks.length⟩ ⟨(tested.builder.test value).2.blocks.length + 1⟩)
  have hx := (computes_expression env consequent).continues hleft hthen.isOpen
  have helse := hchecked.fresh_else hx
    (.branch ⟨(tested.builder.test value).2.blocks.length + 2⟩)
  have hy := (computes_expression env alternative).continues hright helse.isOpen
  have hjoin := hchecked.fresh_join hx hy
    (.branch ⟨(tested.builder.test value).2.blocks.length + 2⟩)
  -- Whatever has been generated on the way is part of the whole function.
  have hmet := (Builder.grows_assign hjoin.isOpen _).trans hgrows
  have hrightEnd := (Builder.grows_moveTo _ _).trans hmet
  have hrightFinal := (Builder.grows_terminate hy.isOpen _).trans hrightEnd
  have helseFinal := hy.grows.trans hrightFinal
  have hleftEnd := (Builder.grows_moveTo _ _).trans helseFinal
  have hleftFinal := (Builder.grows_terminate hx.isOpen _).trans hleftEnd
  have hthenFinal := hx.grows.trans hleftFinal
  have hbranchesEnd := (Builder.grows_moveTo _ _).trans hthenFinal
  have hcheckedFinal := (hbranches.grows.trans (Builder.grows_terminate hbranches.isOpen _)).trans
    hbranchesEnd
  have htestedFinal := hchecked.grows.trans hcheckedFinal
  rw [evaluate]
  refine (htest hyields htestedFinal hagrees).bind ?_
  rintro z after _ ⟨g, rfl, hg, hz, hkeeps⟩
  obtain ⟨k, hreaches, hk, htruth, hkeeps'⟩ := hg.test m p callers hcheckedFinal hz hvalue
  refine .of_reaches hreaches ?_
  have hcount := Nat.le_trans htested.grows.valueCount hchecked.grows.valueCount
  have hbefore := hkeeps.trans (hkeeps'.mono htested.grows.valueCount)
  cases hholds : holds z with
  | true =>
    rw [hholds] at htruth
    obtain ⟨k', hstep, hk', hregisters⟩ := hk.addBranches.branchIf m p callers hthen
      (hk.named.mono List.prefix_rfl fun _ => rfl) hbranchesEnd hthenFinal htruth rfl
    refine .step hstep ((hconsequent hleft hleftFinal hk').then_reaches ?_)
    rintro w cells _ ⟨l, rfl, hl, hw, hkeepsLeft⟩
    obtain ⟨last, hreaches', hlast, hvalue', hkeepsJoin⟩ := hl.join m p callers hjoin
      hy.grows.slots hy.grows.valueCount hleftEnd hgrows hw (by simp)
    rw [← hscope'] at hlast
    have hend := (hkeepsLeft.mono hcount).trans
      (hkeepsJoin.mono (Nat.le_trans hcount hx.grows.valueCount))
    exact ⟨_, hreaches', last, rfl, hlast, hvalue', (hbefore.trans (.congr hregisters)).trans hend⟩
  | false =>
    rw [hholds] at htruth
    obtain ⟨k', hstep, hk', hregisters⟩ := hk.addBranches.branchIf m p callers helse
      (hk.named.mono hx.grows.slots fun _ => rfl) hbranchesEnd helseFinal htruth rfl
    rw [← hscope] at hk'
    refine .step hstep ((halternative hright hrightFinal hk').then_reaches ?_)
    rintro w cells _ ⟨l, rfl, hl, hw, hkeepsRight⟩
    obtain ⟨last, hreaches', hlast, hvalue', hkeepsJoin⟩ := hl.join m p callers hjoin
      List.prefix_rfl (Nat.le_refl _) hrightEnd hgrows hw (by simp [ends_ne hx hy])
    have hcount' := Nat.le_trans hcount hx.grows.valueCount
    have hend := (hkeepsRight.mono hcount').trans
      (hkeepsJoin.mono (Nat.le_trans hcount' hy.grows.valueCount))
    exact ⟨_, hreaches', last, rfl, hlast, hvalue', (hbefore.trans (.congr hregisters)).trans hend⟩

/-- One round of a loop is generated. -/
theorem realizes_round {name : String} {slot : Ssa.SlotId} {finish body : Expr} {step : Option Expr}
    {x y z : ValueId} {a b c : State}
    (hfinish : Implements m p rounds final callers (expression env finish)
      (evaluate rounds call finish))
    (hstep : Implements m p rounds final callers (expressionOr env 1 step)
      (evaluateOr rounds call 1 step))
    (hbody : Implements m p rounds final callers (expression env body)
      (evaluate rounds call body))
    (hx : Yields (expression env body) s x a) (hy : Yields (expressionOr env 1 step) a y b)
    (hz : Yields (expression env finish) { b with builder := b.builder.increase slot y } z c)
    (hslot : s.scope.lookup name = some slot) (hgrows : (c.builder.test z).2.Grows final)
    (hagrees : Agrees final layout s.builder s.scope f memory.cells) :
    Realizes m p rounds ⟨f, callers⟩ memory (do
        let _ ← evaluate rounds call body
        let increment ← evaluateOr rounds call 1 step
        let current ← read name
        write name (current + increment)
        let y ← evaluate rounds call finish
        return holds y)
      fun again cells last => ∃ g, last = ⟨g, callers⟩ ∧
        Agrees final layout (c.builder.test z).2 s.scope g cells ∧
        g.Holds (c.builder.test z).1 (.truth again) ∧ Keeps s.builder.valueCount f g := by
  have hcomputes : Computes (expressionOr env 1 step) :=
    computes_expressionOr fun e _ => computes_expression env e
  have ha := (computes_expression env body).continues hx hagrees.isOpen
  obtain ⟨hb, hincrement⟩ := hcomputes _ _ _ hy ha.isOpen
  have hincreased := (Advances.refl hb.isOpen).increase slot y
  obtain ⟨hc, hcondition⟩ := computes_expression env finish _ _ _ hz hincreased.isOpen
  have hcFinal := ((Advances.refl hc.isOpen).test z).grows.trans hgrows
  have hincreasedFinal := hc.grows.trans hcFinal
  have hbFinal := hincreased.grows.trans hincreasedFinal
  have hkeepsScope : KeepsScope (expressionOr env 1 step) :=
    keepsScope_expressionOr env 1 step
  have hbscope := (hy.scope_eq hkeepsScope).trans (hx.scope_eq (keepsScope_expression env body))
  have hcscope := (hz.scope_eq (keepsScope_expression env finish)).trans hbscope
  rw [← hbscope] at hslot
  refine (hbody hx (hb.grows.trans hbFinal) hagrees).bind ?_
  rintro _ _ _ ⟨g, rfl, hg, -, hkeeps⟩
  refine (hstep hy hbFinal hg).bind ?_
  rintro increment after _ ⟨k, rfl, hk, hy', hkeeps'⟩
  obtain ⟨current, l, cells, hread, hwrite, hreaches, hl, hkeepsIncrease⟩ :=
    hk.increase m p callers hslot hincreasedFinal hy' hincrement
  refine .of_reaches hreaches (.bind_of_run (run_read hread) (.bind_of_run (run_write hwrite) ?_))
  refine (hfinish hz hcFinal hl).bind ?_
  rintro value after' _ ⟨q, rfl, hq, hz', hkeepsFinish⟩
  obtain ⟨last, hreaches', hlast, hvalue, hkeepsTest⟩ :=
    hq.test m p callers hgrows hz' hcondition
  refine .of_reaches hreaches' (.pure ⟨last, rfl, hcscope ▸ hlast, hvalue, ?_⟩)
  -- Each part keeps the registers that were there when it began, so all keep the first ones.
  have hle := Nat.le_trans ha.grows.valueCount hb.grows.valueCount
  have hle' := Nat.le_trans hle hincreased.grows.valueCount
  exact (((hkeeps.trans (hkeeps'.mono ha.grows.valueCount)).trans (hkeepsIncrease.mono hle)).trans
    (hkeepsFinish.mono hle')).trans (hkeepsTest.mono (Nat.le_trans hle' hc.grows.valueCount))

/-- The rounds of a loop are generated: the last step of each leads to the next one or behind the
loop. -/
theorem realizes_rounds {name : String} {slot : Ssa.SlotId} {finish body : Expr}
    {step : Option Expr} {x y z : ValueId} {a b c : State} {behind : Builder} {count : Nat}
    {g : Frame}
    (hfinish : Implements m p rounds final callers (expression env finish)
      (evaluate rounds call finish))
    (hstep : Implements m p rounds final callers (expressionOr env 1 step)
      (evaluateOr rounds call 1 step))
    (hbody : Implements m p rounds final callers (expression env body)
      (evaluate rounds call body))
    (hx : Yields (expression env body) s x a) (hy : Yields (expressionOr env 1 step) a y b)
    (hz : Yields (expression env finish) { b with builder := b.builder.increase slot y } z c)
    (hslot : s.scope.lookup name = some slot) (hloop : s.builder.Fresh) (hbehind : behind.Fresh)
    (hslots : s.builder.slots <+: behind.slots) (hbehindFinal : behind.Grows final)
    (hgrows : ((c.builder.test z).2.terminate
      (.branchIf (c.builder.test z).1 s.builder.current behind.current)).Grows final)
    (hcount : count ≤ s.builder.valueCount)
    (hstands : Stands final callers layout count f s.builder s.scope memory.cells ⟨g, callers⟩) :
    Realizes m p rounds ⟨g, callers⟩ memory (repeatWhile (do
        let _ ← evaluate rounds call body
        let increment ← evaluateOr rounds call 1 step
        let current ← read name
        write name (current + increment)
        let y ← evaluate rounds call finish
        return holds y) rounds)
      fun _ => Stands final callers layout count f behind s.scope := by
  have hround := continues_round hx hy hz hloop.isOpen
  have hroundFinal := (Builder.grows_terminate hround.isOpen _).trans hgrows
  refine .repeatWhile (Stands final callers layout count f s.builder s.scope) ?_ (Nat.le_refl _)
    hstands
  rintro memory _ ⟨g, rfl, hg, hkeeps⟩
  refine (realizes_round hfinish hstep hbody hx hy hz hslot hroundFinal hg).mono ?_
  rintro again cells _ ⟨k, rfl, hk, htruth, hkeeps'⟩
  have hbefore := hkeeps.trans (hkeeps'.mono hcount)
  cases again with
  | true =>
    obtain ⟨next, hnext, hagrees, hregisters⟩ := hk.branchIf m p callers hloop hg.named hgrows
      (hround.grows.trans hroundFinal) htruth rfl
    exact ⟨_, hnext, next, rfl, hagrees, hbefore.trans (.congr hregisters)⟩
  | false =>
    obtain ⟨next, hnext, hagrees, hregisters⟩ := hk.branchIf m p callers hbehind
      (hg.named.mono hslots fun _ => rfl) hgrows hbehindFinal htruth rfl
    exact ⟨_, hnext, next, rfl, hagrees, hbefore.trans (.congr hregisters)⟩

/-- A loop is generated: its variable is introduced, each round ends with the choice between another
round and what follows, and the variable is dropped in the end. -/
theorem implements_loop {name : String} {start finish body : Expr} {step : Option Expr}
    (hstart : Implements m p rounds final callers (expression env start)
      (evaluate rounds call start))
    (hfinish : Implements m p rounds final callers (expression env finish)
      (evaluate rounds call finish))
    (hstep : Implements m p rounds final callers (expressionOr env 1 step)
      (evaluateOr rounds call 1 step))
    (hbody : Implements m p rounds final callers (expression env body)
      (evaluate rounds call body)) :
    Implements m p rounds final callers (expression env (.loop name start finish step body))
      (evaluate rounds call (.loop name start finish step body)) := by
  intro layout s v t f memory h hgrows hagrees
  have hscope := h.scope_eq (keepsScope_expression env _)
  obtain ⟨value, started, x, a, y, b, z, c, hyields, hx, hy, hz, rfl, rfl⟩ := yields_loop h
  have hstarted := (computes_expression env start).continues hyields hagrees.isOpen
  have hintroduced := (Advances.refl hstarted.isOpen).introduce name value
  have hblocks := (Advances.refl hintroduced.isOpen).addLoop
  have hinner := hintroduced.fresh_loop
    (.branch ⟨(started.builder.introduce name value).blocks.length⟩)
  have hround := continues_round hx hy hz hinner.isOpen
  have hafter := hintroduced.fresh_after hround (.branchIf (c.builder.test z).1
    ⟨(started.builder.introduce name value).blocks.length⟩
    ⟨(started.builder.introduce name value).blocks.length + 1⟩)
  -- Whatever has been generated on the way is part of the whole function.
  have hafterFinal := (Builder.grows_assign hafter.isOpen _).trans hgrows
  have htestedEnd := (Builder.grows_moveTo _ _).trans hafterFinal
  have htestedFinal := (Builder.grows_terminate hround.isOpen _).trans htestedEnd
  have hinnerFinal := hround.grows.trans htestedFinal
  have hblocksEnd := (Builder.grows_moveTo _ _).trans hinnerFinal
  have hintroducedFinal := (hblocks.grows.trans
    (Builder.grows_terminate hblocks.isOpen _)).trans hblocksEnd
  have hstartedFinal := hintroduced.grows.trans hintroducedFinal
  rw [evaluate]
  refine (hstart hyields hstartedFinal hagrees).bind ?_
  rintro w after _ ⟨g, rfl, hg, hw, hkeeps⟩
  obtain ⟨k, hreaches, hk, hregisters⟩ :=
    hg.enter.introduce m p callers name hintroducedFinal hw
  obtain ⟨k', hbranch, hk', hregisters', -⟩ := hk.addLoop.branch m p callers hinner
    List.prefix_rfl hblocksEnd hinnerFinal
  have hcount := Nat.le_trans hstarted.grows.valueCount hintroduced.grows.valueCount
  have hlength := hg.contents.length_eq
  have hslot := (hk'.named.lookup name).trans (if_pos rfl)
  have hbefore := (hkeeps.trans (.congr hregisters)).trans (.congr hregisters')
  refine .of_reaches (hreaches.trans (.of_step hbranch)) <| .bind
    (.inScope (fun _ => Stands final callers layout s.builder.valueCount f
      (((c.builder.test z).2.terminate (.branchIf (c.builder.test z).1
        ⟨(started.builder.introduce name value).blocks.length⟩
        ⟨(started.builder.introduce name value).blocks.length + 1⟩)).moveTo
        ⟨(started.builder.introduce name value).blocks.length + 1⟩) s.scope) <|
      .bind_of_run (run_introduce name w after) <|
      .mono (realizes_rounds hfinish hstep hbody hx hy hz hslot hinner hafter
        hround.grows.slots hafterFinal htestedEnd hcount ⟨k', rfl, hk', hbefore⟩) ?_) ?_
  · rintro _ cells _ ⟨last, rfl, hlast, hkeepsRounds⟩
    rw [← hlength]
    exact ⟨last, rfl, hlast.drop [_] hagrees.named.lookup, hkeepsRounds⟩
  · rintro _ cells _ ⟨last, rfl, hlast, hkeepsRounds⟩
    rw [hscope]
    refine (realizes_assign hlast hgrows rfl).mono fun _ _ _ h => h.before hkeepsRounds ?_
    exact Nat.le_trans hcount hround.grows.valueCount

/-- The code of an expression does what the expression means. -/
theorem implements_expression (hcalls : RealizesCalls m p rounds callers.length call)
    (env : Surroundings) (e : Expr) :
    Implements m p rounds final callers (expression env e) (evaluate rounds call e) := by
  induction e with
  | number value =>
    intro layout s v t f memory h hgrows hagrees
    obtain ⟨rfl, rfl⟩ := yields_number.1 h
    rw [evaluate]
    exact realizes_assign hagrees hgrows rfl
  | var name =>
    intro layout s v t f memory h hgrows hagrees
    obtain ⟨slot, hslot, rfl, rfl⟩ := yields_var.1 h
    obtain ⟨x, g, hread, hreaches, hg, hx, hkeeps⟩ := hagrees.load m p callers hslot hgrows
    rw [evaluate]
    exact .of_reaches hreaches (.of_run (run_read hread) ⟨g, rfl, hg, hx, hkeeps⟩)
  | unary operator operand ih =>
    intro layout s v t f memory h hgrows hagrees
    obtain ⟨x, u, hoperand, -, rfl, rfl⟩ := yields_unary h
    have hu := (computes_expression env operand).continues hoperand hagrees.isOpen
    change (u.builder.call (Prototype.unaryName operator) [x]).2.Grows final at hgrows
    rw [evaluate]
    refine (ih hoperand ((Builder.grows_appendValue hu.isOpen _).trans hgrows) hagrees).bind ?_
    rintro y after _ ⟨g, rfl, hg, hy, hkeeps⟩
    exact (realizes_call hcalls hg hgrows (.cons hy .nil)).mono
      fun _ _ _ harrives => harrives.before hkeeps hu.grows.valueCount
  | binary operator left right ihl ihr =>
    intro layout s v t f memory h hgrows hagrees
    by_cases hop : operator = '='
    · subst hop
      obtain ⟨name, slot, u, rfl, hright, hslot, rfl⟩ := yields_assignment h
      have hu := (computes_expression env right).continues hright hagrees.isOpen
      rw [evaluate, if_pos rfl]
      refine (ihr hright ((Builder.grows_append hu.isOpen _).trans hgrows) hagrees).bind ?_
      rintro x after _ ⟨g, rfl, hg, hx, hkeeps⟩
      obtain ⟨k, cells, hwrite, hreaches, hk, hregisters⟩ :=
        hg.store m p callers hslot hgrows hx
      exact .of_reaches hreaches (.bind_of_run (run_write hwrite)
        (.pure ⟨k, rfl, hk, hx.congr hregisters, hkeeps.trans (.congr hregisters)⟩))
    · obtain ⟨x, a, y, b, hleft, hright, happly⟩ := yields_binary hop h
      obtain ⟨ha, hx⟩ := computes_expression env left _ _ _ hleft hagrees.isOpen
      obtain ⟨hb, hy⟩ := computes_expression env right _ _ _ hright ha.isOpen
      have hbFinal := ((computes_applyBinary operator x y).continues happly hb.isOpen).grows.trans
        hgrows
      rw [evaluate_binary hop]
      refine (ihl hleft (hb.grows.trans hbFinal) hagrees).bind ?_
      rintro xv after _ ⟨g, rfl, hg, hxv, hkeeps⟩
      refine (ihr hright hbFinal hg).bind ?_
      rintro yv after' _ ⟨k, rfl, hk, hyv, hkeeps'⟩
      have hbefore := hkeeps.trans (hkeeps'.mono ha.grows.valueCount)
      exact (realizes_applyBinary hcalls happly hgrows hk (hxv.of_keeps hx hkeeps') hyv).mono
        fun _ _ _ harrives => harrives.before hbefore
          (Nat.le_trans ha.grows.valueCount hb.grows.valueCount)
  | call callee arguments ih =>
    intro layout s v t f memory h hgrows hagrees
    obtain ⟨vs, u, harguments, -, rfl, rfl⟩ := yields_application h
    have hu := (continues_expressions (fun e _ => computes_expression env e) harguments
      hagrees.isOpen).1
    change (u.builder.call callee vs).2.Grows final at hgrows
    rw [evaluate]
    refine (realizes_expressions ih harguments
      ((Builder.grows_appendValue hu.isOpen _).trans hgrows) hagrees).bind ?_
    rintro xs after _ ⟨g, rfl, hg, hxs, hkeeps⟩
    exact (realizes_call hcalls hg hgrows hxs).mono
      fun _ _ _ harrives => harrives.before hkeeps hu.grows.valueCount
  | conditional test consequent alternative ihc iht ihe =>
    exact implements_conditional ihc iht ihe
  | loop name start finish step body ihs ihf ihstep ihb =>
    exact implements_loop ihs ihf (implements_expressionOr ihstep) ihb
  | locals bindings body ihs ihb =>
    intro layout s v t f memory h hgrows hagrees
    have hscope := h.scope_eq (keepsScope_expression env _)
    obtain ⟨bound, u, hbind, hbody, rfl⟩ := yields_locals h
    have hbound := continues_bindLocals (fun _ _ e _ => computes_expression env e) hbind
      hagrees.isOpen
    have hu := (computes_expression env body).continues hbody hbound.isOpen
    have hlength := hagrees.contents.length_eq
    rw [hscope, evaluate]
    refine .inScope _ ((realizes_bindLocals ihs hbind (hu.grows.trans hgrows)
      hagrees.enter).bind ?_)
    rintro _ after _ ⟨g, inner, rfl, hg, hkeeps⟩
    refine (ihb hbody hgrows hg).mono ?_
    rintro x cells _ ⟨k, rfl, hk, hx, hkeeps'⟩
    rw [← hlength]
    exact ⟨k, rfl, hk.drop inner hagrees.named.lookup, hx,
      hkeeps.trans (hkeeps'.mono hbound.grows.valueCount)⟩

end Lowering

end Kaleidoscope
