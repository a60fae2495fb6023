import Kaleidoscope.Proofs.Lowering.Growth
import Kaleidoscope.Proofs.Ssa.Names
import Kaleidoscope.Proofs.Ssa.Regions

/-!
# Bodies stay sound while they are built

An instruction may be appended if its operands are available where the builder stands. A block may
be left for blocks that wait to be entered, and for the beginning of the loop that the block is in.
A new block waits until an edge leads to it.
-/

namespace Kaleidoscope.Ssa.Builder

variable {a b : Builder} {waiting W W' : List BlockId}

/-- The operand is available where the builder stands. -/
def Has (b : Builder) (operand : ValueId × Kind) : Prop :=
  Available b.parameters.length b.blocks operand b.current (endOf b.blocks b.current)

/-- The slot has been written where the builder stands. -/
def HasStored (b : Builder) (slot : SlotId) : Prop :=
  Preceded b.blocks (Instruction.Stores slot) b.current (endOf b.blocks b.current)

/-- A builder in an open block that control can get to. All that it has produced is sound. The
blocks `W` need not be reached so far. -/
structure Steady (W : List BlockId) (b : Builder) : Prop where
  isOpen : b.Open
  reached : b.current ∉ W
  waiting : ∀ j ∈ W, j.index < b.blocks.length
  named : b.body.Named b.parameters.length
  sound : Sound b.parameters.length b.slots.length W b.blocks

/-- An edge leads to a block that is there. -/
theorem Steady.lt_length (h : Steady W b) {i j : BlockId} (hedge : Edge b.blocks i j) :
    j.index < b.blocks.length :=
  (h.sound.edges hedge).2

/-- What is available before a construct is available after it. -/
theorem Region.has (h : Region waiting a b) (ha : Steady W a) {operand : ValueId × Kind}
    (hoperand : a.Has operand) : b.Has operand := by
  unfold Has
  rw [h.grows.parameters]
  exact hoperand.imp_right (h.preceded ha.lt_length ha.isOpen)

/-- What has been written before a construct has been written after it. -/
theorem Region.hasStored (h : Region waiting a b) (ha : Steady W a) {slot : SlotId}
    (hslot : a.HasStored slot) : b.HasStored slot :=
  h.preceded ha.lt_length ha.isOpen hslot

/-- The instruction may stand where the builder stands. -/
abbrev Admits (b : Builder) (x : Instruction) : Prop :=
  x.Admitted b.parameters.length b.slots.length b.blocks b.current (endOf b.blocks b.current)

/-- An instruction that is admitted keeps control and data flow sound. -/
theorem Steady.sound_append (h : Steady W b) {x : Instruction} (hx : b.Admits x) :
    Sound b.parameters.length b.slots.length W (b.append x).blocks := by
  refine h.sound.extend (grows_append h.isOpen x).keeps (b.terminatorAt?_append x)
    (Nat.le_of_eq (b.length_append x).symm) (fun hj hwaiting => ?_) fun {j l y} hy => ?_
  · exact ⟨Nat.lt_of_lt_of_eq hj (b.length_append x), hwaiting⟩
  · rw [instructionAt?_append h.isOpen] at hy
    split at hy
    · rename_i hplace
      obtain ⟨rfl, rfl⟩ := hplace
      cases hy
      exact hx
    · exact h.sound.instructions hy

/-- A builder goes on with an instruction that is admitted. -/
theorem Steady.append (h : Steady W b) {x : Instruction} (hx : b.Admits x)
    (hresult : x.result? = none) : Steady W (b.append x) where
  isOpen := h.isOpen.append x
  reached := h.reached
  waiting j hj := (b.length_append x).symm ▸ h.waiting j hj
  named := named_append h.named h.isOpen.lt_length hresult
  sound := h.sound_append hx

/-- A builder goes on with an instruction that is admitted, and has the value that it computes. -/
theorem Steady.appendValue (h : Steady W b) {x : ValueId → Instruction} {kind : Kind}
    (hx : b.Admits (x ⟨b.valueCount⟩)) (hresult : ∀ target, (x target).result? = some (target, kind)) :
    Steady W (b.appendValue x).2 ∧ (b.appendValue x).2.Has ((b.appendValue x).1, kind) := by
  refine ⟨⟨h.isOpen.appendValue x, h.reached, fun j hj => ?_,
    named_appendValue h.named h.isOpen.lt_length hresult, h.sound_append hx⟩,
    .inr ⟨b.current, endOf b.blocks b.current, _, ?_, hresult _, .inl ⟨rfl, ?_⟩⟩⟩
  · exact (b.length_append _).symm ▸ h.waiting j hj
  · exact (instructionAt?_append h.isOpen _ _ _).trans (if_pos ⟨rfl, rfl⟩)
  · have hend : endOf (b.append (x ⟨b.valueCount⟩)).blocks b.current = endOf b.blocks b.current + 1 :=
      (endOf_append h.isOpen _ _).trans (if_pos rfl)
    exact Nat.lt_of_lt_of_eq (Nat.lt_succ_self _) hend.symm

/-- A builder goes on with a new slot. -/
theorem Steady.allocate (h : Steady W b) (variableName : String) :
    Steady W (b.allocate variableName).2 where
  isOpen := h.isOpen.allocate variableName
  reached := h.reached
  waiting := h.waiting
  named := ⟨h.named.labels, h.named.values, h.named.destinations⟩
  sound :=
    { h.sound with
      instructions := fun hx =>
        have hgrows := b.grows_allocate variableName
        (h.sound.instructions hx).mono hgrows.keeps (fun _ _ _ hi => hi) (fun _ _ _ _ => Iff.rfl)
          hgrows.slots.length_le }

/-- An empty block that nothing leads to keeps control and data flow sound. -/
theorem Steady.sound_appendBlock (h : Steady W b) (label : String) :
    Sound b.parameters.length b.slots.length ((b.appendBlock label).1 :: W)
      (b.appendBlock label).2.blocks := by
  have hlength := b.length_appendBlock label
  refine h.sound.extend (grows_appendBlock b label).keeps (b.terminatorAt?_appendBlock label)
    (Nat.le_of_lt (Nat.lt_of_lt_of_eq (Nat.lt_succ_self _) hlength.symm)) (fun {j} hj hnot => ?_)
    fun {j l x} hx => ?_
  · obtain ⟨hnew, hnot⟩ := not_or.1 (List.mem_cons.not.1 hnot)
    rw [hlength] at hj
    refine ⟨Nat.lt_of_le_of_ne (Nat.le_of_lt_succ hj) fun heq => hnew ?_, hnot⟩
    exact BlockId.eq_of_index heq
  · rw [instructionAt?_appendBlock] at hx
    exact h.sound.instructions hx

/-- A new block has a label of its own, and waits until an edge leads to it. -/
theorem Steady.appendBlock (h : Steady W b) (label : String) :
    Steady ((b.appendBlock label).1 :: W) (b.appendBlock label).2 where
  isOpen := h.isOpen.appendBlock label
  reached hmem := by
    rcases List.mem_cons.1 hmem with heq | hmem
    · exact Nat.ne_of_lt h.isOpen.lt_length (congrArg BlockId.index heq)
    · exact h.reached hmem
  waiting j hj := by
    rw [length_appendBlock]
    rcases List.mem_cons.1 hj with rfl | hj
    · exact Nat.lt_succ_self _
    · exact Nat.lt_succ_of_lt (h.waiting j hj)
  named := named_appendBlock h.named label
  sound := h.sound_appendBlock label

/-- Control gets to where the builder stands only through the block, and may go back there. -/
structure LeadsHere (b : Builder) (j : BlockId) : Prop where
  ne_entry : j ≠ .entry
  lt_length : j.index < b.blocks.length
  dominates : Dominates (Edge b.blocks) j b.current
  phis : ∀ l target incoming, instructionAt? b.blocks j l ≠ some (.assign target (.phi incoming))

/-- A construct that began in an empty block may go back there. -/
theorem Region.leadsHere (h : Region waiting a b) (ha : Steady W a) (hfresh : a.Fresh)
    (hentry : a.current ≠ .entry) : b.LeadsHere a.current where
  ne_entry := hentry
  lt_length := Nat.lt_of_lt_of_le ha.isOpen.lt_length h.grows.length_le
  dominates := h.dominates_through ha.lt_length ha.isOpen (.refl _ _)
  phis l target incoming hphi := by
    rcases h.phis hphi with hphi | hle
    · obtain ⟨label, hblock⟩ := hfresh
      rw [instructionAt?, hblock] at hphi
      cases hphi
    · exact Nat.not_le_of_lt ha.isOpen.lt_length hle

/-- A block that waits to be entered has no instructions and no way out. -/
theorem Region.instructionAt?_waiting (h : Region waiting a b) {j : BlockId} (hj : j ∈ waiting)
    (l : Nat) : instructionAt? b.blocks j l = none := by
  obtain ⟨-, -, label, hblock⟩ := h.fresh hj
  rw [instructionAt?, hblock]
  rfl

/-- A block that waits has no terminator. -/
theorem Region.terminatorAt?_waiting (h : Region waiting a b) {j : BlockId} (hj : j ∈ waiting) :
    terminatorAt? b.blocks j = none := by
  obtain ⟨-, -, label, hblock⟩ := h.fresh hj
  rw [terminatorAt?, hblock]
  rfl

/-- Leaving a block for blocks that wait to be entered, or for one that leads here, takes no
dominance away. -/
theorem Region.dominates_terminate (h : Region waiting a b) (terminator : Terminator)
    (htargets : ∀ j ∈ terminator.targets, j ∈ waiting ∨ b.LeadsHere j) {i j : BlockId}
    (hi : Dominates (Edge b.blocks) i j) (hj : j ∉ waiting) :
    Dominates (Edge (b.terminate terminator).blocks) i j := by
  refine hi.of_added (fun i j hedge => (edge_terminate h.isOpen terminator).1 hedge)
    (fun j hj => (htargets j hj).imp_right LeadsHere.dominates)
    (fun j hj => ⟨(h.fresh hj).2.1, ?_⟩) hj
  rintro k ⟨t, ht, -⟩
  rw [h.terminatorAt?_waiting hj] at ht
  cases ht

/-- Leaving a block for blocks that wait to be entered, or for one that leads here, keeps control
and data flow sound. -/
theorem Steady.sound_terminate (h : Steady W b) (hregion : Region waiting a b) (hopen : a.Open)
    {terminator : Terminator}
    (htargets : ∀ j ∈ terminator.targets, j ∈ waiting ∨ b.LeadsHere j)
    (hoperands : ∀ operand ∈ terminator.operands, b.Has operand)
    (hwaiting : ∀ j ∈ W, j ∈ W' ∨ j ∈ terminator.targets) :
    Sound b.parameters.length b.slots.length W' (b.terminate terminator).blocks := by
  have hkeeps := (grows_terminate h.isOpen terminator).keeps
  have hmore (i j : BlockId) (hedge : Edge b.blocks i j) : Edge (b.terminate terminator).blocks i j :=
    (edge_terminate h.isOpen terminator).2 (.inl hedge)
  have hempty {j : BlockId} {l : Nat} {x : Instruction} (hx : instructionAt? b.blocks j l = some x) :
      j ∉ waiting := fun hj => by simp [hregion.instructionAt?_waiting hj] at hx
  have hexit {j : BlockId} {t : Terminator} (ht : terminatorAt? b.blocks j = some t) :
      j ∉ waiting := fun hj => by simp [hregion.terminatorAt?_waiting hj] at ht
  have hdominates {i j : BlockId} (hi : Dominates (Edge b.blocks) i j) (hj : j ∉ waiting) :
      Dominates (Edge (b.terminate terminator).blocks) i j :=
    hregion.dominates_terminate terminator htargets hi hj
  constructor
  case edges =>
    intro i j hedge
    rw [length_terminate]
    rcases (edge_terminate h.isOpen terminator).1 hedge with hedge | ⟨-, hj⟩
    · exact h.sound.edges hedge
    · rcases htargets j hj with hj | hj
      · obtain ⟨hle, -, label, hblock⟩ := hregion.fresh hj
        have hpos := hopen.lt_length
        refine ⟨fun heq => ?_, (List.getElem?_eq_some_iff.1 hblock).1⟩
        have : j.index = 0 := congrArg BlockId.index heq
        omega
      · exact ⟨hj.ne_entry, hj.lt_length⟩
  case reachable =>
    intro j hj hnot
    rw [length_terminate] at hj
    by_cases hmem : j ∈ W
    · have hcurrent := (h.sound.reachable h.isOpen.lt_length h.reached).mono hmore
      exact hcurrent.step
        ((edge_terminate h.isOpen terminator).2 (.inr ⟨rfl, (hwaiting j hmem).resolve_left hnot⟩))
    · exact (h.sound.reachable hj hmem).mono hmore
  case instructions =>
    intro j l x hx
    rw [instructionAt?_terminate] at hx
    refine (h.sound.instructions hx).mono hkeeps (fun i k hk hi => hdominates hi ?_)
      (fun target incoming hphi i => ⟨fun hedge => ?_, hmore i j⟩) (Nat.le_refl _)
    · rcases hk with rfl | ⟨t, ht, -⟩
      · exact hempty hx
      · exact hexit ht
    · subst hphi
      refine ((edge_terminate h.isOpen terminator).1 hedge).resolve_right fun ⟨_, hj⟩ => ?_
      rcases htargets j hj with hj | hj
      · exact hempty hx hj
      · exact hj.phis l target incoming hx
  case terminators =>
    intro j t ht operand hoperand
    rw [terminatorAt?_terminate h.isOpen] at ht
    split at ht
    · rename_i hj
      subst hj
      cases ht
      exact (hoperands operand hoperand).mono hkeeps
        (fun _ hi => hdominates hi fun hj => (hregion.fresh hj).2.1 rfl) (hkeeps.endOf _)
    · exact (h.sound.terminators ht operand hoperand).mono hkeeps
        (fun _ hi => hdominates hi (hexit ht)) (hkeeps.endOf _)

/-- A builder goes on in the next one of the blocks that wait to be entered. -/
theorem Steady.enter (h : Steady W b) {next : BlockId} (hregion : Region (next :: waiting) a b)
    (hopen : a.Open) {terminator : Terminator}
    (htargets : ∀ j ∈ terminator.targets, j ∈ next :: waiting ∨ b.LeadsHere j)
    (hoperands : ∀ operand ∈ terminator.operands, b.Has operand)
    (hwaiting : ∀ j ∈ W, j ∈ W' ∨ j ∈ terminator.targets) (hsubset : W' ⊆ W) (hnext : next ∉ W') :
    Steady W' ((b.terminate terminator).moveTo next) where
  isOpen := (hregion.fresh_enter terminator).isOpen
  reached := hnext
  waiting j hj := (b.length_terminate terminator).symm ▸ h.waiting j (hsubset hj)
  named := named_terminate h.named terminator
  sound := h.sound_terminate hregion hopen htargets hoperands hwaiting

end Kaleidoscope.Ssa.Builder
