import Kaleidoscope.Proofs.Ssa.Growth
import Kaleidoscope.Proofs.Ssa.WellFormed

/-!
# Constructs are regions

The blocks of a construct form a region of the control flow: it is entered only at the block where
the construct began, and its edges lead nowhere but to blocks of its own. So outside of it nothing
becomes reachable in new ways, and what had been executed before the construct has been executed in
all of its blocks.
-/

namespace Kaleidoscope.Ssa.Builder

variable {a b c : Builder} {waiting : List BlockId} {i j : BlockId} {l : Nat}

/-- What a change keeps is read as before. -/
theorem bind_change {α : Type} {f : Block → Block} {g : Block → Option α}
    (hf : ∀ block, g (f block) = g block) {i k : Nat} (block : Option Block) :
    (if i = k then block.map f else block).bind g = block.bind g := by
  split
  · cases block with
    | none => rfl
    | some block => exact hf block
  · rfl

/-- An empty block is read like no block. -/
theorem bind_appendBlock {α : Type} {g : Block → Option α} (b : Builder) (label : String) (i : Nat)
    (hempty : g ⟨b.freshLabel label, [], none⟩ = none) :
    (b.appendBlock label).2.blocks[i]?.bind g = b.blocks[i]?.bind g := by
  rw [appendBlock_blocks]
  split
  · rename_i hi
    rw [List.getElem?_eq_none (Nat.le_of_eq hi.symm)]
    exact hempty
  · rfl

/-- An instruction is appended at the end of the current block. -/
theorem instructionAt?_append (hopen : b.Open) (x : Instruction) (j : BlockId) (l : Nat) :
    instructionAt? (b.append x).blocks j l =
      if j = b.current ∧ l = endOf b.blocks b.current then some x
      else instructionAt? b.blocks j l := by
  obtain ⟨block, hblock, -⟩ := hopen
  unfold instructionAt? endOf
  rw [append_blocks]
  by_cases hj : j = b.current
  · subst hj
    simp only [hblock, if_true, Option.map_some, Option.bind_some, Option.getD_some, true_and]
    rcases Nat.lt_trichotomy l block.instructions.length with hl | hl | hl
    · rw [List.getElem?_append_left hl, if_neg (by omega)]
    · rw [hl, List.getElem?_concat_length, if_pos rfl]
    · rw [List.getElem?_eq_none (by simp; omega), List.getElem?_eq_none (by omega), if_neg (by omega)]
  · rw [if_neg fun h => hj (BlockId.eq_of_index h.symm), if_neg fun h => hj h.1]

/-- The current block becomes longer by an instruction. -/
theorem endOf_append (hopen : b.Open) (x : Instruction) (j : BlockId) :
    endOf (b.append x).blocks j =
      if j = b.current then endOf b.blocks j + 1 else endOf b.blocks j := by
  obtain ⟨block, hblock, -⟩ := hopen
  unfold endOf
  rw [append_blocks]
  by_cases hj : j = b.current
  · subst hj
    simp [hblock]
  · rw [if_neg fun h => hj (BlockId.eq_of_index h.symm), if_neg hj]

/-- An instruction changes no terminator. -/
theorem terminatorAt?_append (b : Builder) (x : Instruction) (j : BlockId) :
    terminatorAt? (b.append x).blocks j = terminatorAt? b.blocks j := by
  unfold terminatorAt?
  rw [append_blocks]
  refine bind_change (fun block => ?_) _
  rfl

/-- A terminator changes no instruction. -/
theorem instructionAt?_terminate (b : Builder) (terminator : Terminator) (j : BlockId) (l : Nat) :
    instructionAt? (b.terminate terminator).blocks j l = instructionAt? b.blocks j l := by
  unfold instructionAt?
  rw [terminate_blocks]
  refine bind_change (fun block => ?_) _
  rfl

/-- The current block gets the terminator. -/
theorem terminatorAt?_terminate (hopen : b.Open) (terminator : Terminator) (j : BlockId) :
    terminatorAt? (b.terminate terminator).blocks j =
      if j = b.current then some terminator else terminatorAt? b.blocks j := by
  obtain ⟨block, hblock, -⟩ := hopen
  unfold terminatorAt?
  rw [terminate_blocks]
  by_cases hj : j = b.current
  · subst hj
    simp [hblock]
  · rw [if_neg fun h => hj (BlockId.eq_of_index h.symm), if_neg hj]

/-- An empty block adds no instruction. -/
theorem instructionAt?_appendBlock (b : Builder) (label : String) (j : BlockId) (l : Nat) :
    instructionAt? (b.appendBlock label).2.blocks j l = instructionAt? b.blocks j l :=
  bind_appendBlock b label j.index rfl

/-- An empty block has no terminator. -/
theorem terminatorAt?_appendBlock (b : Builder) (label : String) (j : BlockId) :
    terminatorAt? (b.appendBlock label).2.blocks j = terminatorAt? b.blocks j :=
  bind_appendBlock b label j.index rfl

/-- An instruction adds no edge. -/
theorem edge_append (b : Builder) (x : Instruction) : Edge (b.append x).blocks = Edge b.blocks :=
  edge_congr (b.terminatorAt?_append x)

/-- An empty block adds no edge. -/
theorem edge_appendBlock (b : Builder) (label : String) :
    Edge (b.appendBlock label).2.blocks = Edge b.blocks :=
  edge_congr (b.terminatorAt?_appendBlock label)

/-- A terminator adds the edges from the current block to its targets. -/
theorem edge_terminate (hopen : b.Open) (terminator : Terminator) :
    Edge (b.terminate terminator).blocks i j ↔
      Edge b.blocks i j ∨ i = b.current ∧ j ∈ terminator.targets := by
  unfold Edge
  rw [terminatorAt?_terminate hopen]
  by_cases hi : i = b.current
  · subst hi
    have hnone : terminatorAt? b.blocks b.current = none := by
      obtain ⟨block, hblock, hnone⟩ := hopen
      rw [terminatorAt?, hblock]
      exact hnone
    simp [hnone]
  · simp [hi]

/-- Growth leaves instructions where they are. -/
theorem Grows.keeps (h : b.Grows c) : Keeps b.blocks c.blocks where
  instruction {i k x} hx := by
    obtain ⟨block, hblock, hx⟩ := Option.bind_eq_some_iff.1 hx
    obtain ⟨later, hlater, hgrows⟩ := h.blocks hblock
    obtain ⟨added, hadded⟩ := hgrows.instructions
    rw [instructionAt?, hlater, Option.bind_some, ← hadded,
      List.getElem?_append_left (List.getElem?_eq_some_iff.1 hx).1, hx]
  endOf i := by
    unfold endOf
    cases hblock : b.blocks[i.index]? with
    | none => exact Nat.zero_le _
    | some block =>
      obtain ⟨later, hlater, hgrows⟩ := h.blocks hblock
      rw [hlater]
      exact hgrows.instructions.length_le

/-- Growth takes no edge away. -/
theorem Grows.edge (h : b.Grows c) (hedge : Edge b.blocks i j) : Edge c.blocks i j := by
  obtain ⟨terminator, hterminator, hj⟩ := hedge
  obtain ⟨block, hblock, hsome⟩ := Option.bind_eq_some_iff.1 hterminator
  obtain ⟨later, hlater, hgrows⟩ := h.blocks hblock
  obtain rfl := hgrows.terminated (by rw [hsome]; rfl)
  exact ⟨terminator, Option.bind_eq_some_iff.2 ⟨_, hlater, hsome⟩, hj⟩

/-- A construct with its edges and phis. -/
structure Region (waiting : List BlockId) (a b : Builder) : Prop extends Advances waiting a b where
  /-- New edges lead to new blocks, from these or from the block where the construct began. -/
  edges : ∀ {i j}, Edge b.blocks i j → Edge a.blocks i j ∨
    a.blocks.length ≤ j.index ∧ (i = a.current ∨ a.blocks.length ≤ i.index)
  /-- New phis stand in new blocks. -/
  phis : ∀ {j l target incoming},
    instructionAt? b.blocks j l = some (.assign target (.phi incoming)) →
      instructionAt? a.blocks j l = some (.assign target (.phi incoming)) ∨
        a.blocks.length ≤ j.index

namespace Region

/-- Nothing has been generated yet. -/
theorem refl (hopen : b.Open) : Region [] b b :=
  { Advances.refl hopen with edges := .inl, phis := .inl }

/-- A region is extended by an instruction. A phi has to stand in a new block. -/
theorem of_append (h : Region waiting a b) (hc : Advances waiting a c) {x : Instruction}
    (hblocks : c.blocks = (b.append x).blocks)
    (hx : (∀ target incoming, x ≠ .assign target (.phi incoming)) ∨
      a.blocks.length ≤ b.current.index) : Region waiting a c where
  toAdvances := hc
  edges hedge := by
    rw [hblocks, edge_append] at hedge
    exact h.edges hedge
  phis hphi := by
    rw [hblocks, instructionAt?_append h.isOpen] at hphi
    split at hphi
    · rename_i hplace
      obtain ⟨rfl, -⟩ := hplace
      exact .inr (hx.resolve_left fun hne => hne _ _ (Option.some.inj hphi))
    · exact h.phis hphi

/-- An instruction other than a phi may be added. -/
theorem append (h : Region waiting a b) {x : Instruction}
    (hx : ∀ target incoming, x ≠ .assign target (.phi incoming)) :
    Region waiting a (b.append x) :=
  h.of_append (h.toAdvances.append x) rfl (.inl hx)

/-- An instruction with a value, other than a phi, may be added. -/
theorem appendValue (h : Region waiting a b) {x : ValueId → Instruction}
    (hx : ∀ target target' incoming, x target ≠ .assign target' (.phi incoming)) :
    Region waiting a (b.appendValue x).2 :=
  h.of_append (h.toAdvances.appendValue x) rfl (.inl fun _ _ => hx _ _ _)

/-- A region is extended by a slot. -/
theorem allocate (h : Region waiting a b) (variableName : String) :
    Region waiting a (b.allocate variableName).2 :=
  { h.toAdvances.allocate variableName with edges := h.edges, phis := h.phis }

/-- A region is extended by a block. -/
theorem appendBlock (h : Region waiting a b) (label : String) :
    Region (waiting ++ [(b.appendBlock label).1]) a (b.appendBlock label).2 where
  toAdvances := h.toAdvances.appendBlock label
  edges hedge := by
    rw [edge_appendBlock] at hedge
    exact h.edges hedge
  phis hphi := by
    rw [instructionAt?_appendBlock] at hphi
    exact h.phis hphi

/-- A region is extended by another one. -/
theorem trans (h : Region waiting a b) (hnext : Region [] b c) : Region waiting a c where
  toAdvances := h.toAdvances.trans hnext.toAdvances
  edges hedge := by
    have hle := h.grows.length_le
    rcases hnext.edges hedge with hedge | ⟨hj, rfl | hi⟩
    · exact h.edges hedge
    · exact .inr ⟨Nat.le_trans hle hj, h.current⟩
    · exact .inr ⟨Nat.le_trans hle hj, .inr (Nat.le_trans hle hi)⟩
  phis hphi := by
    rcases hnext.phis hphi with hphi | hj
    · exact h.phis hphi
    · exact .inr (Nat.le_trans h.grows.length_le hj)

/-- A region leaves a block for the next one of those waiting. -/
theorem enter {next : BlockId} (h : Region (next :: waiting) a b) (hnext : next ∉ waiting)
    {terminator : Terminator} (htargets : ∀ j ∈ terminator.targets, a.blocks.length ≤ j.index) :
    Region waiting a ((b.terminate terminator).moveTo next) where
  toAdvances := h.toAdvances.enter hnext terminator
  edges hedge := by
    rcases (edge_terminate h.isOpen terminator).1 hedge with hedge | ⟨rfl, hj⟩
    · exact h.edges hedge
    · exact .inr ⟨htargets _ hj, h.current⟩
  phis {j l target incoming} hphi :=
    h.phis ((instructionAt?_terminate b terminator j l).symm.trans hphi)

/-- A construct does not stand in a block that waits. -/
theorem current_notMem (h : Region waiting a b) : b.current ∉ waiting :=
  fun hmem => (h.fresh hmem).2.1 rfl

/-- No edge to an old block is added. -/
theorem edge_iff (h : Region waiting a b) (hj : j.index < a.blocks.length) :
    Edge b.blocks i j ↔ Edge a.blocks i j := by
  refine ⟨fun hedge => (h.edges hedge).resolve_right fun hnew => ?_, h.grows.edge⟩
  omega

variable (hedges : ∀ {i j}, Edge a.blocks i j → j.index < a.blocks.length)
include hedges

/-- Old blocks are dominated as before. -/
theorem dominates_old (h : Region waiting a b) (hi : Dominates (Edge a.blocks) i j)
    (hj : j.index < a.blocks.length) : Dominates (Edge b.blocks) i j :=
  hi.of_old (fun _ _ hedge => ⟨hedge.lt_length, hedges hedge⟩) (fun _ _ hedge => h.edges hedge) hj

/-- What dominates the block where the construct began dominates the block where it ends. -/
theorem dominates_through (h : Region waiting a b) (hopen : a.Open)
    (hi : Dominates (Edge a.blocks) i a.current) : Dominates (Edge b.blocks) i b.current :=
  hi.through (fun _ _ hedge => ⟨hedge.lt_length, hedges hedge⟩) (fun _ _ hedge => h.edges hedge)
    hopen.lt_length h.current

/-- What had been executed before the construct has been executed after it. -/
theorem preceded (h : Region waiting a b) (hopen : a.Open) {P : Instruction → Prop}
    (hP : Preceded a.blocks P a.current (endOf a.blocks a.current)) :
    Preceded b.blocks P b.current (endOf b.blocks b.current) := by
  obtain ⟨i, k, x, hx, hPx, hplace⟩ := hP
  have hkeeps := h.grows.keeps
  refine ⟨i, k, x, hkeeps.instruction hx, hPx, ?_⟩
  have hi : Dominates (Edge b.blocks) i b.current := by
    rcases hplace with ⟨rfl, -⟩ | ⟨-, hi⟩
    · exact h.dominates_through hedges hopen (.refl _ _)
    · exact h.dominates_through hedges hopen hi
  by_cases hcurrent : i = b.current
  · subst hcurrent
    exact .inl ⟨rfl, Nat.lt_of_lt_of_le (lt_endOf hx) (hkeeps.endOf _)⟩
  · exact .inr ⟨hcurrent, hi⟩

end Region

end Kaleidoscope.Ssa.Builder
