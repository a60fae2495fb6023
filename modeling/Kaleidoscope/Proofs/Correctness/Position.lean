import Kaleidoscope.Proofs.Lowering.Growth
import Kaleidoscope.Proofs.Machine.Registers

/-!
# Where a frame stands in generated code

A frame that executes a finished function stands where some builder stood while the function was
generated: what the builder appends next is what the frame executes next. The lemmas below follow
a frame through one instruction or one terminator of such a builder.
-/

namespace Kaleidoscope.Machine

open Ssa (Block BlockId Builder Instruction Operation Program SlotId Terminator ValueId)

namespace Frame

variable {final b : Builder} {f g h : Frame}

/-- The frame has executed what `b` has appended to its current block, and next comes what was
appended later. The whole function is that of `final`. -/
structure At (final b : Builder) (f : Frame) : Prop where
  body : f.body = final.body
  current : f.current = b.current
  registers : f.registers.size = final.valueCount
  slots : f.slots.size = final.slots.length
  block : final.blocks[b.current.index]? = some f.block
  pending : ∃ block, b.blocks[b.current.index]? = some block ∧
    f.block.instructions = block.instructions ++ f.pending

/-- A register that is kept holds what it held. -/
theorem Holds.of_keeps {v : ValueId} {x : Value} (hx : f.Holds v x) (hcomputed : Lowering.Computed b v)
    (hkeeps : Keeps b.valueCount f g) : g.Holds v x :=
  (hkeeps v.index hcomputed).trans hx

/-- Where a frame stands depends on the current block alone. -/
theorem At.congr {c : Builder} (hat : f.At final b) (hcurrent : c.current = b.current)
    (hblock : c.blocks[b.current.index]? = b.blocks[b.current.index]?) : f.At final c := by
  refine ⟨hat.body, hcurrent ▸ hat.current, hat.registers, hat.slots, hcurrent ▸ hat.block, ?_⟩
  rw [hcurrent, hblock]
  exact hat.pending

/-- The instruction that the builder appends next is the one that the frame executes next. -/
theorem At.next (hat : f.At final b) {instruction : Instruction}
    (hgrows : (b.append instruction).Grows final) :
    ∃ rest, f.pending = instruction :: rest ∧
      ({ f with pending := rest } : Frame).At final (b.append instruction) := by
  obtain ⟨block, hblock, hpending⟩ := hat.pending
  have happend : (b.append instruction).blocks[b.current.index]? =
      some { block with instructions := block.instructions ++ [instruction] } := by
    rw [Builder.append_blocks, if_pos rfl, hblock]
    rfl
  obtain ⟨later, hlater, hgrow⟩ := hgrows.blocks happend
  obtain rfl : later = f.block := Option.some.inj (hlater.symm.trans hat.block)
  obtain ⟨rest, hrest⟩ := hgrow.instructions
  simp only [hpending, List.append_assoc, List.append_cancel_left_eq, List.cons_append,
    List.nil_append] at hrest
  refine ⟨rest, hrest.symm, hat.body, hat.current, hat.registers, hat.slots, hat.block, _,
    happend, ?_⟩
  simp only [hpending, ← hrest, List.append_assoc, List.cons_append, List.nil_append]

/-- The instruction that the builder computes a value with next is executed next. -/
theorem At.next_value (hat : f.At final b) {instruction : ValueId → Instruction}
    (hgrows : (b.appendValue instruction).2.Grows final) :
    ∃ rest, f.pending = instruction ⟨b.valueCount⟩ :: rest ∧
      ({ f with pending := rest } : Frame).At final (b.appendValue instruction).2 := by
  have happend : (b.append (instruction ⟨b.valueCount⟩)).Grows (b.appendValue instruction).2 :=
    ⟨rfl, rfl, List.prefix_rfl, Nat.le_succ b.valueCount, fun {_ block} h => ⟨block, h, .refl block⟩⟩
  obtain ⟨rest, hpending, hnext⟩ := hat.next (happend.trans hgrows)
  exact ⟨rest, hpending, hnext.congr rfl rfl⟩

/-- A value that arrives in the register of an instruction that has been executed. -/
theorem At.assign (hat : f.At final b) {instruction : ValueId → Instruction}
    (hgrows : (b.appendValue instruction).2.Grows final) (x : Value) :
    ∃ rest g, f.pending = instruction ⟨b.valueCount⟩ :: rest ∧
      ({ f with pending := rest } : Frame).assign ⟨b.valueCount⟩ x = .ok g ∧
      g.At final (b.appendValue instruction).2 ∧ g.Holds ⟨b.valueCount⟩ x ∧
      Keeps b.valueCount f g ∧ g.slots = f.slots := by
  have hlt : b.valueCount < f.registers.size := by
    rw [hat.registers]
    exact hgrows.valueCount
  obtain ⟨rest, hpending, hnext⟩ := hat.next_value hgrows
  refine ⟨rest, _, hpending, assign_eq (f := { f with pending := rest }) hlt x, ?_,
    holds_set (v := ⟨b.valueCount⟩) hlt x, keeps_set (v := ⟨b.valueCount⟩) hlt x, rfl⟩
  exact ⟨hnext.body, hnext.current, (Array.size_set hlt).trans hnext.registers, hnext.slots,
    hnext.block, hnext.pending⟩

variable (m : Machine) (p : Program) (callers : List Suspended)

/-- The frame executes an operation. -/
theorem At.step_assign (hat : f.At final b) {operation : Operation}
    (hgrows : (b.assign operation).2.Grows final) {x : Value} (hx : f.evaluate operation = .ok x) :
    ∃ g, m.step p ⟨f, callers⟩ = ⟨.running ⟨g, callers⟩, none⟩ ∧
      g.At final (b.assign operation).2 ∧ g.Holds (b.assign operation).1 x ∧
      Keeps b.valueCount f g ∧ g.slots = f.slots := by
  obtain ⟨rest, g, hpending, hassign, hg⟩ := hat.assign hgrows x
  refine ⟨g, ?_, hg⟩
  rw [Machine.step, hpending]
  simp only [evaluate_pending, hx, bind, Except.bind, hassign, Status.goOn]

/-- The frame executes a store. -/
theorem At.step_store (hat : f.At final b) {slot : SlotId} {v : ValueId} {x : Float}
    (hgrows : (b.store slot v).Grows final) (hslot : slot.index < b.slots.length)
    (hx : f.Holds v (.number x)) :
    ∃ g, m.step p ⟨f, callers⟩ = ⟨.running ⟨g, callers⟩, none⟩ ∧ g.At final (b.store slot v) ∧
      g.registers = f.registers ∧
      ∀ i : Nat, g.slots[i]? = if i = slot.index then some (some x) else f.slots[i]? := by
  have hlt : slot.index < f.slots.size := by
    rw [hat.slots]
    exact Nat.lt_of_lt_of_le hslot hgrows.slots.length_le
  obtain ⟨rest, hpending, hnext⟩ := hat.next hgrows
  have hnumber : ({ f with pending := rest } : Frame).number v = .ok x := Holds.number_eq hx
  refine ⟨{ f with pending := rest, slots := f.slots.set slot.index (some x) hlt }, ?_, ?_, rfl,
    fun i => ?_⟩
  · rw [Machine.step, hpending]
    simp only [hnumber, bind, Except.bind, Frame.store, dif_pos hlt, Status.goOn]
  · exact ⟨hnext.body, hnext.current, hnext.registers, (Array.size_set hlt).trans hnext.slots,
      hnext.block, hnext.pending⟩
  · rw [Array.getElem?_set]
    simp only [eq_comm]

/-- The terminator that the builder sets next is the one that the frame executes next. -/
theorem At.last (hat : f.At final b) {terminator : Terminator}
    (hgrows : (b.terminate terminator).Grows final) :
    f.pending = [] ∧ f.block.terminator = some terminator := by
  obtain ⟨block, hblock, hpending⟩ := hat.pending
  have hterminate : (b.terminate terminator).blocks[b.current.index]? =
      some { block with terminator := some terminator } := by
    rw [Builder.terminate_blocks, if_pos rfl, hblock]
    rfl
  obtain ⟨later, hlater, hgrow⟩ := hgrows.blocks hterminate
  obtain rfl : later = f.block := Option.some.inj (hlater.symm.trans hat.block)
  have hsame := hgrow.terminated rfl
  refine ⟨?_, by rw [hsame]⟩
  rw [hsame] at hpending
  exact List.self_eq_append_right.mp hpending

/-- At the beginning of a block a frame stands where a builder does that has just entered it. -/
theorem At.moveTo (hat : f.At final b) {c : Builder} (hfresh : c.Fresh) (hgrows : c.Grows final) :
    ∃ g, f.moveTo c.current = .ok g ∧ g.At final c ∧ g.registers = f.registers ∧
      g.slots = f.slots ∧ g.previous = some b.current := by
  obtain ⟨label, hblock⟩ := hfresh
  obtain ⟨block, hfinal, -⟩ := hgrows.blocks hblock
  have hfound : f.body.blocks[c.current.index]? = some block := by
    rw [hat.body]
    exact hfinal
  refine ⟨{ f with
    previous := some f.current
    current := c.current
    block := block
    pending := block.instructions }, ?_, ?_, rfl, rfl, congrArg some hat.current⟩
  · rw [Frame.moveTo, hfound]
  · exact ⟨hat.body, rfl, hat.registers, hat.slots, hfinal, _, hblock, rfl⟩

/-- The frame goes on in another block. -/
theorem At.step_branch (hat : f.At final b) {c : Builder} (hfresh : c.Fresh)
    (hgrows : (b.terminate (.branch c.current)).Grows final) (hnext : c.Grows final) :
    ∃ g, m.step p ⟨f, callers⟩ = ⟨.running ⟨g, callers⟩, none⟩ ∧ g.At final c ∧
      g.registers = f.registers ∧ g.slots = f.slots ∧ g.previous = some b.current := by
  obtain ⟨hpending, hterminator⟩ := hat.last hgrows
  obtain ⟨g, hmove, hg⟩ := hat.moveTo hfresh hnext
  refine ⟨g, ?_, hg⟩
  rw [Machine.step, hpending]
  simp only [stepTerminator, hterminator, hmove, Status.goOn]

/-- The frame goes on in one of two blocks. -/
theorem At.step_branchIf (hat : f.At final b) {c : Builder} {v : ValueId} {holds : Bool}
    {consequent alternative : BlockId} (hfresh : c.Fresh)
    (hgrows : (b.terminate (.branchIf v consequent alternative)).Grows final)
    (hnext : c.Grows final) (hv : f.Holds v (.truth holds))
    (hc : (if holds then consequent else alternative) = c.current) :
    ∃ g, m.step p ⟨f, callers⟩ = ⟨.running ⟨g, callers⟩, none⟩ ∧ g.At final c ∧
      g.registers = f.registers ∧ g.slots = f.slots ∧ g.previous = some b.current := by
  obtain ⟨hpending, hterminator⟩ := hat.last hgrows
  obtain ⟨g, hmove, hg⟩ := hat.moveTo hfresh hnext
  refine ⟨g, ?_, hg⟩
  rw [Machine.step, hpending]
  simp only [stepTerminator, hterminator, hv.truth_eq, bind, Except.bind, hc, hmove, Status.goOn]

/-- The frame gives its value back. -/
theorem At.step_ret (hat : f.At final b) {v : ValueId} {x : Float}
    (hgrows : (b.terminate (.ret v)).Grows final) (hv : f.Holds v (.number x)) :
    m.step p ⟨f, callers⟩ = ⟨.giveBack x callers, none⟩ := by
  obtain ⟨hpending, hterminator⟩ := hat.last hgrows
  rw [Machine.step, hpending]
  simp only [stepTerminator, hterminator, hv.number_eq]

end Frame

end Kaleidoscope.Machine
