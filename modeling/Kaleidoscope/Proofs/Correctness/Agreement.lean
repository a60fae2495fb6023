import Kaleidoscope.Proofs.Correctness.Layout
import Kaleidoscope.Proofs.Correctness.Position
import Kaleidoscope.Proofs.Correctness.Realization
import Kaleidoscope.Proofs.Number.Order

/-!
# Frames that agree with memory

A frame agrees with the variables of an evaluation if it stands where the builder stood and its
slots hold what the cells hold. The lemmas below follow such a frame through the pieces of code that
expressions are made of.
-/

namespace Kaleidoscope

open Evaluation
open Machine (Frame Suspended Value)
open Machine.Frame (Keeps)
open Lowering (Computed)
open Ssa (BlockId Builder Operation Program SlotId ValueId)

/-- The frame stands where `b` stood, and its slots hold what the cells hold. The whole function is
that of `final`. -/
structure Agrees (final : Builder) (layout : Layout) (b : Builder) (scope : Scope) (f : Frame)
    (cells : List Cell) : Prop where
  isOpen : b.Open
  position : f.At final b
  named : layout.Named b scope
  contents : layout.Holds f.slots cells

namespace Agrees

variable {final b c : Builder} {layout : Layout} {scope scope' : Scope} {f g : Frame}
  {cells : List Cell} {x y : Float} {v increment : ValueId} {slot : SlotId} {name : String}

/-- Agreement outlives whatever touches neither slots nor names. -/
theorem move (h : Agrees final layout b scope f cells) (hopen : c.Open) (hat : g.At final c)
    (hgrows : b.slots <+: c.slots) (hscope : ∀ name, scope'.lookup name = scope.lookup name)
    (hslots : g.slots = f.slots) : Agrees final layout c scope' g cells :=
  ⟨hopen, hat, h.named.mono hgrows hscope, hslots ▸ h.contents⟩

/-- Only the names in scope matter, not which scopes are open. -/
theorem enter (h : Agrees final layout b scope f cells) : Agrees final layout b scope.enter f cells :=
  h.move h.isOpen h.position List.prefix_rfl (fun _ => rfl) rfl

/-- Another block does not matter. -/
theorem appendBlock (h : Agrees final layout b scope f cells) (label : String) :
    Agrees final layout (b.appendBlock label).2 scope f cells := by
  refine h.move (h.isOpen.appendBlock label) (h.position.congr rfl ?_) List.prefix_rfl
    (fun _ => rfl) rfl
  rw [Builder.appendBlock_blocks, if_neg (Nat.ne_of_lt h.isOpen.lt_length)]

/-- The blocks of a conditional do not matter yet. -/
theorem addBranches (h : Agrees final layout b scope f cells) :
    Agrees final layout b.addBranches scope f cells :=
  ((h.appendBlock "then").appendBlock "else").appendBlock "ifcont"

/-- The blocks of a loop do not matter yet. -/
theorem addLoop (h : Agrees final layout b scope f cells) :
    Agrees final layout b.addLoop scope f cells :=
  (h.appendBlock "loop").appendBlock "afterloop"

/-- The inner variables are dropped. -/
theorem drop (inner : Layout) (h : Agrees final (inner ++ layout) b scope f cells)
    (hscope : ∀ name, scope'.lookup name = Dictionary.lookupIn name layout) :
    Agrees final layout b scope' f (cells.drop (cells.length - layout.length)) :=
  ⟨h.isOpen, h.position, h.named.of_append hscope, h.contents.drop⟩

variable (m : Machine) (p : Program) (callers : List Suspended)

/-- An operation is executed. -/
theorem assign (h : Agrees final layout b scope f cells) {operation : Operation} {x : Value}
    (hgrows : (b.assign operation).2.Grows final) (hx : f.evaluate operation = .ok x) :
    ∃ g, Reaches m p ⟨f, callers⟩ ⟨g, callers⟩ ∧
      Agrees final layout (b.assign operation).2 scope g cells ∧
      g.Holds (b.assign operation).1 x ∧ Keeps b.valueCount f g := by
  obtain ⟨g, hstep, hat, hholds, hkeeps, hslots⟩ := h.position.step_assign m p callers hgrows hx
  exact ⟨g, .of_step hstep,
    h.move (h.isOpen.appendValue _) hat List.prefix_rfl (fun _ => rfl) hslots, hholds, hkeeps⟩

/-- A variable is loaded. -/
theorem load (h : Agrees final layout b scope f cells) (hslot : scope.lookup name = some slot)
    (hgrows : (b.assign (.load slot)).2.Grows final) :
    ∃ x g, readIn name cells = some x ∧ Reaches m p ⟨f, callers⟩ ⟨g, callers⟩ ∧
      Agrees final layout (b.assign (.load slot)).2 scope g cells ∧
      g.Holds (b.assign (.load slot)).1 (.number x) ∧ Keeps b.valueCount f g := by
  rw [h.named.lookup] at hslot
  obtain ⟨x, hread, hcontents⟩ := h.contents.readIn_eq hslot
  have hx : f.evaluate (.load slot) = .ok (.number x) := by
    simp only [Frame.evaluate, Frame.load, hcontents, bind, Except.bind]
  obtain ⟨g, hg⟩ := h.assign m p callers hgrows hx
  exact ⟨x, g, hread, hg⟩

/-- A variable is stored. -/
theorem store (h : Agrees final layout b scope f cells) (hslot : scope.lookup name = some slot)
    (hgrows : (b.store slot v).Grows final) (hx : f.Holds v (.number x)) :
    ∃ g cells', writeIn name x cells = some cells' ∧ Reaches m p ⟨f, callers⟩ ⟨g, callers⟩ ∧
      Agrees final layout (b.store slot v) scope g cells' ∧ g.registers = f.registers := by
  rw [h.named.lookup] at hslot
  have hallocated := h.named.allocated slot (Layout.mem_of_lookupIn hslot)
  obtain ⟨g, hstep, hat, hregisters, hslots⟩ :=
    h.position.step_store m p callers hgrows hallocated hx
  obtain ⟨cells', hwrite, hcontents⟩ := h.contents.writeIn_eq h.named.distinct hslot hslots
  exact ⟨g, cells', hwrite, .of_step hstep,
    ⟨h.isOpen.append _, hat, h.named.mono List.prefix_rfl fun _ => rfl, hcontents⟩, hregisters⟩

/-- A variable is introduced. -/
theorem introduce (h : Agrees final layout b scope f cells) (name : String)
    (hgrows : (b.introduce name v).Grows final) (hx : f.Holds v (.number x)) :
    ∃ g, Reaches m p ⟨f, callers⟩ ⟨g, callers⟩ ∧
      Agrees final ((name, ⟨b.slots.length⟩) :: layout) (b.introduce name v)
        (scope.bind name ⟨b.slots.length⟩) g (⟨name, x⟩ :: cells) ∧ g.registers = f.registers := by
  have hallocate : f.At final (b.allocate name).2 := h.position.congr rfl rfl
  have hallocated : b.slots.length < (b.allocate name).2.slots.length := by
    simp [Builder.allocate]
  obtain ⟨g, hstep, hat, hregisters, hslots⟩ :=
    hallocate.step_store m p callers hgrows hallocated hx
  refine ⟨g, .of_step hstep, ⟨(h.isOpen.allocate name).append _, hat, h.named.introduce name v,
    .cons ⟨rfl, by rw [hslots, if_pos rfl]⟩ (h.contents.of_slots ?_)⟩, hregisters⟩
  intro i hi
  rw [hslots, if_neg]
  exact Nat.ne_of_lt (h.named.allocated i hi)

/-- A number is tested. -/
theorem test (h : Agrees final layout b scope f cells) (hgrows : (b.test v).2.Grows final)
    (hx : f.Holds v (.number x)) (hv : Computed b v) :
    ∃ g, Reaches m p ⟨f, callers⟩ ⟨g, callers⟩ ∧ Agrees final layout (b.test v).2 scope g cells ∧
      g.Holds (b.test v).1 (.truth (holds x)) ∧ Keeps b.valueCount f g := by
  have hconstant : f.evaluate (.constant 0) = .ok (.number 0) := rfl
  obtain ⟨zeroed, hreaches, hzeroed, hzero, hkeeps⟩ := h.assign m p callers
    ((Builder.grows_assign (h.isOpen.appendValue _) _).trans hgrows) hconstant
  have hcompare : zeroed.evaluate (.compare .orderedAndDistinct v (b.assign (.constant 0)).1) =
      .ok (.truth (holds x)) := by
    rw [Frame.evaluate_compare (hx.of_keeps hv hkeeps) hzero, compare_orderedAndDistinct]
  obtain ⟨g, hreaches', hg, hholds, hkeeps'⟩ := hzeroed.assign m p callers hgrows hcompare
  exact ⟨g, hreaches.trans hreaches', hg, hholds, hkeeps.trans (hkeeps'.mono (Nat.le_succ _))⟩

/-- A variable is increased. -/
theorem increase (h : Agrees final layout b scope f cells) (hslot : scope.lookup name = some slot)
    (hgrows : (b.increase slot increment).Grows final) (hy : f.Holds increment (.number y))
    (hincrement : Computed b increment) :
    ∃ x g cells', readIn name cells = some x ∧ writeIn name (x + y) cells = some cells' ∧
      Reaches m p ⟨f, callers⟩ ⟨g, callers⟩ ∧
      Agrees final layout (b.increase slot increment) scope g cells' ∧ Keeps b.valueCount f g := by
  have hloaded := h.isOpen.appendValue (.assign · (.load slot))
  have hadded := hloaded.appendValue (.assign · (.arithmetic .add ⟨b.valueCount⟩ increment))
  have hstored := (Builder.grows_append hadded _).trans hgrows
  obtain ⟨x, loaded, hread, hreaches, hagrees, hx, hkeeps⟩ := h.load m p callers hslot
    ((Builder.grows_assign hloaded _).trans hstored)
  have hsum : loaded.evaluate (.arithmetic .add ⟨b.valueCount⟩ increment) =
      .ok (.number (x + y)) :=
    Frame.evaluate_arithmetic hx (hy.of_keeps hincrement hkeeps) .add
  obtain ⟨added, hreaches', hagrees', hholds, hkeeps'⟩ := hagrees.assign m p callers hstored hsum
  obtain ⟨g, cells', hwrite, hreaches'', hg, hregisters⟩ :=
    hagrees'.store m p callers hslot hgrows hholds
  refine ⟨x, g, cells', hread, hwrite, (hreaches.trans hreaches').trans hreaches'', hg, ?_⟩
  exact (hkeeps.trans (hkeeps'.mono (Nat.le_succ _))).trans (.congr hregisters)

/-- Another block is entered. -/
theorem branch (h : Agrees final layout b scope f cells) (hfresh : c.Fresh)
    (hslots : b.slots <+: c.slots) (hgrows : (b.terminate (.branch c.current)).Grows final)
    (hnext : c.Grows final) :
    ∃ g, m.step p ⟨f, callers⟩ = ⟨.running ⟨g, callers⟩, none⟩ ∧
      Agrees final layout c scope g cells ∧ g.registers = f.registers ∧
      g.previous = some b.current := by
  obtain ⟨g, hstep, hat, hregisters, hsame, hprevious⟩ :=
    h.position.step_branch m p callers hfresh hgrows hnext
  exact ⟨g, hstep, h.move hfresh.isOpen hat hslots (fun _ => rfl) hsame, hregisters, hprevious⟩

/-- One of two blocks is entered. -/
theorem branchIf (h : Agrees final layout b scope f cells) {choice : Bool}
    {consequent alternative : BlockId} (hfresh : c.Fresh) (hnamed : layout.Named c scope)
    (hgrows : (b.terminate (.branchIf v consequent alternative)).Grows final)
    (hnext : c.Grows final) (hv : f.Holds v (.truth choice))
    (hc : (if choice then consequent else alternative) = c.current) :
    ∃ g, m.step p ⟨f, callers⟩ = ⟨.running ⟨g, callers⟩, none⟩ ∧
      Agrees final layout c scope g cells ∧ g.registers = f.registers := by
  obtain ⟨g, hstep, hat, hregisters, hsame, -⟩ :=
    h.position.step_branchIf m p callers hfresh hgrows hnext hv hc
  exact ⟨g, hstep, ⟨hfresh.isOpen, hat, hnamed, hsame ▸ h.contents⟩, hregisters⟩

/-- The branches of a conditional meet: the value is that of the branch that has been taken. -/
theorem join (h : Agrees final layout b scope f cells) {incoming : List (ValueId × BlockId)}
    (hfresh : c.Fresh) (hslots : b.slots <+: c.slots) (hvalues : b.valueCount ≤ c.valueCount)
    (hgrows : (b.terminate (.branch c.current)).Grows final)
    (hnext : (c.assign (.phi incoming)).2.Grows final) (hx : f.Holds v (.number x))
    (hincoming : incoming.find? (fun alternative => some alternative.2 = some b.current) =
      some (v, b.current)) :
    ∃ g, Reaches m p ⟨f, callers⟩ ⟨g, callers⟩ ∧
      Agrees final layout (c.assign (.phi incoming)).2 scope g cells ∧
      g.Holds (c.assign (.phi incoming)).1 (.number x) ∧ Keeps b.valueCount f g := by
  obtain ⟨met, hstep, hmet, hregisters, hprevious⟩ := h.branch m p callers hfresh hslots hgrows
    ((Builder.grows_assign hfresh.isOpen _).trans hnext)
  have hphi : met.evaluate (.phi incoming) = .ok (.number x) := by
    simp only [Frame.evaluate, hprevious, hincoming]
    exact (hx.congr hregisters).value_eq
  obtain ⟨g, hreaches, hg, hholds, hkeeps⟩ := hmet.assign m p callers hnext hphi
  have hsame : Keeps b.valueCount f met := .congr hregisters
  exact ⟨g, (Reaches.of_step hstep).trans hreaches, hg, hholds, hsame.trans (hkeeps.mono hvalues)⟩

end Agrees

end Kaleidoscope
