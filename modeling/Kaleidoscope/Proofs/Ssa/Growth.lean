import Kaleidoscope.Ssa.Builder
import Mathlib.Data.List.Basic

/-!
# Builders only grow

A builder appends to open blocks and never touches a terminated one, so whatever it has produced so
far is still there in every later builder. Beyond that, a construct that starts in one open block
ends in one open block: every block that it added in between is terminated, apart from those that it
has added ahead of time and that wait, still empty, to be entered.
-/

namespace Kaleidoscope.Ssa

/-- A block is known by its number. -/
theorem BlockId.eq_of_index {i j : BlockId} (h : i.index = j.index) : i = j := by
  cases i; cases j; exact congrArg BlockId.mk h

/-- The later block has all that the earlier one has. A terminated block changes no more. -/
structure Block.Grows (block later : Block) : Prop where
  label : later.label = block.label
  instructions : block.instructions <+: later.instructions
  terminated : block.terminator.isSome → later = block

/-- Every block has grown into itself. -/
theorem Block.Grows.refl (block : Block) : block.Grows block :=
  ⟨rfl, List.prefix_rfl, fun _ => rfl⟩

/-- Growth of blocks composes. -/
theorem Block.Grows.trans {a b c : Block} (hab : a.Grows b) (hbc : b.Grows c) : a.Grows c := by
  refine ⟨hbc.label.trans hab.label, hab.instructions.trans hbc.instructions, fun h => ?_⟩
  obtain rfl := hab.terminated h
  exact hbc.terminated h

namespace Builder

variable {a b c : Builder}

/-- The body that a builder has produced. -/
def body (b : Builder) : Body := ⟨b.slots, b.blocks, b.valueCount⟩

/-- Nothing that the earlier builder has produced is lost or changed in the later one. -/
structure Grows (b later : Builder) : Prop where
  name : later.name = b.name
  parameters : later.parameters = b.parameters
  slots : b.slots <+: later.slots
  valueCount : b.valueCount ≤ later.valueCount
  blocks : ∀ {i : Nat} {block : Block}, b.blocks[i]? = some block →
    ∃ block', later.blocks[i]? = some block' ∧ block.Grows block'

/-- Every builder has grown into itself. -/
theorem Grows.refl (b : Builder) : b.Grows b :=
  ⟨rfl, rfl, List.prefix_rfl, Nat.le_refl _, fun {_ block} h => ⟨block, h, .refl block⟩⟩

/-- Growth of builders composes. -/
theorem Grows.trans (hab : a.Grows b) (hbc : b.Grows c) : a.Grows c where
  name := hbc.name.trans hab.name
  parameters := hbc.parameters.trans hab.parameters
  slots := hab.slots.trans hbc.slots
  valueCount := Nat.le_trans hab.valueCount hbc.valueCount
  blocks h := by
    obtain ⟨block', hb, hgrow⟩ := hab.blocks h
    obtain ⟨block'', hc, hgrow'⟩ := hbc.blocks hb
    exact ⟨block'', hc, hgrow.trans hgrow'⟩

/-- No block disappears. -/
theorem Grows.length_le (h : a.Grows b) : a.blocks.length ≤ b.blocks.length := by
  by_contra hlt
  have hi : b.blocks.length < a.blocks.length := by omega
  obtain ⟨block', hb, -⟩ := h.blocks (List.getElem?_eq_getElem hi)
  rw [List.getElem?_eq_none (Nat.le_refl _)] at hb
  cases hb

/-- The block where the builder stands can still be appended to. -/
def Open (b : Builder) : Prop :=
  ∃ block, b.blocks[b.current.index]? = some block ∧ block.terminator = none

/-- The block where the builder stands is empty. -/
def Fresh (b : Builder) : Prop :=
  ∃ label, b.blocks[b.current.index]? = some ⟨label, [], none⟩

/-- An empty block can be appended to. -/
theorem Fresh.isOpen (h : b.Fresh) : b.Open := by
  obtain ⟨label, hblock⟩ := h
  exact ⟨_, hblock, rfl⟩

/-- A builder begins in an empty block. -/
theorem fresh_start (name : String) (parameters : List String) : (start name parameters).Fresh :=
  ⟨"entry", rfl⟩

/-- The block of an open builder exists. -/
theorem Open.lt_length (h : b.Open) : b.current.index < b.blocks.length := by
  obtain ⟨block, hblock, -⟩ := h
  exact (List.getElem?_eq_some_iff.mp hblock).1

/-- Appending changes the current block alone. -/
theorem append_blocks (b : Builder) (instruction : Instruction) (i : Nat) :
    (b.append instruction).blocks[i]? =
      if b.current.index = i then
        b.blocks[i]?.map fun block =>
          { block with instructions := block.instructions ++ [instruction] }
      else b.blocks[i]? := by
  simp only [append, List.getElem?_modify]
  split <;> simp

/-- Terminating changes the current block alone. -/
theorem terminate_blocks (b : Builder) (terminator : Terminator) (i : Nat) :
    (b.terminate terminator).blocks[i]? =
      if b.current.index = i then
        b.blocks[i]?.map fun block => { block with terminator := some terminator }
      else b.blocks[i]? := by
  simp only [terminate, List.getElem?_modify]
  split <;> simp

/-- A new block is empty, and the others stay as they are. -/
theorem appendBlock_blocks (b : Builder) (label : String) (i : Nat) :
    (b.appendBlock label).2.blocks[i]? =
      if i = b.blocks.length then some ⟨b.freshLabel label, [], none⟩ else b.blocks[i]? := by
  simp only [appendBlock]
  rcases Nat.lt_trichotomy i b.blocks.length with h | h | h
  · rw [List.getElem?_append_left h, if_neg (by omega)]
  · simp [h]
  · rw [if_neg (by omega), List.getElem?_eq_none (by simp; omega), List.getElem?_eq_none (by omega)]

/-- If only the current block of an open builder changes, and grows, the builder grows. -/
theorem grows_of_current (f : Block → Block) (hopen : b.Open)
    (hname : c.name = b.name) (hparameters : c.parameters = b.parameters)
    (hslots : c.slots = b.slots) (hvalues : b.valueCount ≤ c.valueCount)
    (hblocks : ∀ i, c.blocks[i]? = if b.current.index = i then b.blocks[i]?.map f else b.blocks[i]?)
    (hf : ∀ block : Block, block.terminator = none → block.Grows (f block)) : b.Grows c := by
  refine ⟨hname, hparameters, hslots ▸ List.prefix_rfl, hvalues, fun {i block} h => ?_⟩
  rw [hblocks]
  by_cases hi : b.current.index = i
  · obtain ⟨current, hcurrent, hnone⟩ := hopen
    rw [hi, h, Option.some.injEq] at hcurrent
    subst hcurrent
    exact ⟨f block, by simp [hi, h], hf block hnone⟩
  · exact ⟨block, by simp [hi, h], .refl block⟩

/-- An open builder grows by an instruction. -/
theorem grows_append (hopen : b.Open) (instruction : Instruction) :
    b.Grows (b.append instruction) :=
  grows_of_current _ hopen rfl rfl rfl (Nat.le_refl _) (b.append_blocks instruction)
    fun _ hnone => ⟨rfl, List.prefix_append _ _, fun h => by simp [hnone] at h⟩

/-- An open builder grows by an instruction that computes a value. -/
theorem grows_appendValue (hopen : b.Open) (instruction : ValueId → Instruction) :
    b.Grows (b.appendValue instruction).2 :=
  grows_of_current _ hopen rfl rfl rfl (Nat.le_succ _) (b.append_blocks _)
    fun _ hnone => ⟨rfl, List.prefix_append _ _, fun h => by simp [hnone] at h⟩

/-- An open builder grows by an operation. -/
theorem grows_assign (hopen : b.Open) (operation : Operation) : b.Grows (b.assign operation).2 :=
  grows_appendValue hopen _

/-- An open builder grows by a terminator. -/
theorem grows_terminate (hopen : b.Open) (terminator : Terminator) :
    b.Grows (b.terminate terminator) :=
  grows_of_current _ hopen rfl rfl rfl (Nat.le_refl _) (b.terminate_blocks terminator)
    fun _ hnone => ⟨rfl, List.prefix_rfl, fun h => by simp [hnone] at h⟩

/-- A builder grows by a slot. -/
theorem grows_allocate (b : Builder) (variableName : String) :
    b.Grows (b.allocate variableName).2 :=
  ⟨rfl, rfl, List.prefix_append _ _, Nat.le_refl _, fun {_ block} h => ⟨block, h, .refl block⟩⟩

/-- A builder grows by a block. -/
theorem grows_appendBlock (b : Builder) (label : String) : b.Grows (b.appendBlock label).2 := by
  refine ⟨rfl, rfl, List.prefix_rfl, Nat.le_refl _, fun {i block} h => ⟨block, ?_, .refl block⟩⟩
  have hi := (List.getElem?_eq_some_iff.mp h).1
  rw [appendBlock_blocks, if_neg (by omega), h]

/-- Where a builder stands does not matter for what it has produced. -/
theorem grows_moveTo (b : Builder) (block : BlockId) : b.Grows (b.moveTo block) :=
  ⟨rfl, rfl, List.prefix_rfl, Nat.le_refl _, fun {_ block} h => ⟨block, h, .refl block⟩⟩

/-- The current block stays open when an instruction is appended. -/
theorem Open.append (hopen : b.Open) (instruction : Instruction) : (b.append instruction).Open := by
  obtain ⟨block, hblock, hnone⟩ := hopen
  refine ⟨{ block with instructions := block.instructions ++ [instruction] }, ?_, hnone⟩
  change (b.append instruction).blocks[b.current.index]? = _
  rw [append_blocks, if_pos rfl, hblock]
  rfl

/-- The current block stays open when a value is computed in it. -/
theorem Open.appendValue (hopen : b.Open) (instruction : ValueId → Instruction) :
    (b.appendValue instruction).2.Open :=
  hopen.append _

/-- The current block stays open when a slot is added. -/
theorem Open.allocate (hopen : b.Open) (variableName : String) :
    (b.allocate variableName).2.Open :=
  hopen

/-- The current block stays open when another one is added. -/
theorem Open.appendBlock (hopen : b.Open) (label : String) : (b.appendBlock label).2.Open := by
  have hlt := hopen.lt_length
  obtain ⟨block, hblock, hnone⟩ := hopen
  refine ⟨block, ?_, hnone⟩
  change (b.appendBlock label).2.blocks[b.current.index]? = _
  rw [appendBlock_blocks, if_neg (by omega), hblock]

/-- Terminating an open block is not terminating a block twice. -/
theorem Open.overterminated_terminate (hopen : b.Open) (terminator : Terminator) :
    (b.terminate terminator).overterminated = b.overterminated := by
  obtain ⟨block, hblock, hnone⟩ := hopen
  simp [terminate, hblock, hnone]

/-- What happens while a construct is generated that began in the open builder `b`. The blocks
`waiting` have been added for later parts of the construct. -/
structure Advances (waiting : List BlockId) (b later : Builder) : Prop where
  grows : b.Grows later
  overterminated : later.overterminated = b.overterminated
  isOpen : later.Open
  /-- The construct is left in the block where it began or in a new one. -/
  current : later.current = b.current ∨ b.blocks.length ≤ later.current.index
  /-- Blocks that do not belong to the construct stay as they are. -/
  others : ∀ {i : Nat} {block : Block}, b.blocks[i]? = some block → i ≠ b.current.index →
    later.blocks[i]? = some block
  /-- Blocks that the construct has left are terminated. -/
  closed : ∀ {i : Nat} {block : Block}, later.blocks[i]? = some block → i ≠ later.current.index →
    ⟨i⟩ ∉ waiting → i = b.current.index ∨ b.blocks.length ≤ i → block.terminator.isSome
  /-- Waiting blocks are new and empty. -/
  fresh : ∀ {j : BlockId}, j ∈ waiting → b.blocks.length ≤ j.index ∧ j ≠ later.current ∧
    ∃ label, later.blocks[j.index]? = some ⟨label, [], none⟩

/-- A construct without parts waiting: it began in one open block and has ended in one. -/
abbrev Continues (b later : Builder) : Prop := Advances [] b later

namespace Advances

variable {waiting : List BlockId}

/-- Nothing has been generated yet. -/
theorem refl (hopen : b.Open) : Continues b b where
  grows := .refl b
  overterminated := rfl
  isOpen := hopen
  current := .inl rfl
  others h _ := h
  closed h hne _ hi := by
    have hlt := (List.getElem?_eq_some_iff.mp h).1
    rcases hi with hi | hi
    · exact absurd hi hne
    · omega
  fresh h := by cases h

/-- The block where a construct stands is none of the earlier ones that are not its own. -/
theorem current_ne (h : Advances waiting a b) {i : Nat} (hi : i < a.blocks.length)
    (hne : i ≠ a.current.index) : i ≠ b.current.index := by
  rcases h.current with hc | hc
  · rwa [hc]
  · omega

/-- A change of the current block that leaves it open is a part of the construct. -/
theorem of_current (h : Advances waiting a b) (hgrows : b.Grows c) (hopen : c.Open)
    (hcurrent : c.current = b.current) (hover : c.overterminated = b.overterminated)
    (hblocks : ∀ i, i ≠ b.current.index → c.blocks[i]? = b.blocks[i]?) : Advances waiting a c where
  grows := h.grows.trans hgrows
  overterminated := hover.trans h.overterminated
  isOpen := hopen
  current := hcurrent ▸ h.current
  others {i block} hi hne := by
    have hlt := (List.getElem?_eq_some_iff.mp hi).1
    rw [hblocks i (h.current_ne hlt hne)]
    exact h.others hi hne
  closed {i block} hi hne hw hnew := by
    rw [hcurrent] at hne
    rw [hblocks i hne] at hi
    exact h.closed hi hne hw hnew
  fresh {j} hj := by
    obtain ⟨hnew, hne, label, hblock⟩ := h.fresh hj
    refine ⟨hnew, hcurrent ▸ hne, label, ?_⟩
    rw [hblocks j.index fun heq => hne (BlockId.eq_of_index heq), hblock]

/-- A construct goes on with an instruction. -/
theorem append (h : Advances waiting a b) (instruction : Instruction) :
    Advances waiting a (b.append instruction) :=
  h.of_current (grows_append h.isOpen _) (h.isOpen.append _) rfl rfl fun i hne => by
    rw [append_blocks, if_neg (Ne.symm hne)]

/-- A construct goes on with an instruction that computes a value. -/
theorem appendValue (h : Advances waiting a b) (instruction : ValueId → Instruction) :
    Advances waiting a (b.appendValue instruction).2 :=
  h.of_current (grows_appendValue h.isOpen _) (h.isOpen.appendValue _) rfl rfl fun i hne => by
    change (b.append _).blocks[i]? = _
    rw [append_blocks, if_neg (Ne.symm hne)]

/-- A construct goes on with a new slot. -/
theorem allocate (h : Advances waiting a b) (variableName : String) :
    Advances waiting a (b.allocate variableName).2 :=
  h.of_current (grows_allocate b _) (h.isOpen.allocate _) rfl rfl fun _ _ => rfl

/-- A construct adds a block for one of its later parts. -/
theorem appendBlock (h : Advances waiting a b) (label : String) :
    Advances (waiting ++ [(b.appendBlock label).1]) a (b.appendBlock label).2 where
  grows := h.grows.trans (grows_appendBlock b label)
  overterminated := h.overterminated
  isOpen := h.isOpen.appendBlock label
  current := h.current
  others {i block} hi hne := by
    have hlt := (List.getElem?_eq_some_iff.mp hi).1
    have hle := h.grows.length_le
    rw [appendBlock_blocks, if_neg (by omega)]
    exact h.others hi hne
  closed {i block} hi hne hw hnew := by
    simp only [List.mem_append, List.mem_singleton, not_or] at hw
    have hi' : i ≠ b.blocks.length := fun heq => hw.2 (heq ▸ rfl)
    rw [appendBlock_blocks, if_neg hi'] at hi
    exact h.closed hi hne hw.1 hnew
  fresh {j} hj := by
    have hle := h.grows.length_le
    have hlt := h.isOpen.lt_length
    rcases List.mem_append.mp hj with hj | hj
    · obtain ⟨hnew, hne, label', hblock⟩ := h.fresh hj
      have hjlt := (List.getElem?_eq_some_iff.mp hblock).1
      exact ⟨hnew, hne, label', by rw [appendBlock_blocks, if_neg (by omega), hblock]⟩
    · obtain rfl := List.mem_singleton.mp hj
      refine ⟨hle, fun heq => ?_, b.freshLabel label, ?_⟩
      · have : b.blocks.length = b.current.index := congrArg BlockId.index heq
        omega
      · exact (appendBlock_blocks b label _).trans (if_pos rfl)

/-- A construct goes on with another one, which leaves the waiting blocks alone. -/
theorem trans (h : Advances waiting a b) (hnext : Continues b c) : Advances waiting a c where
  grows := h.grows.trans hnext.grows
  overterminated := hnext.overterminated.trans h.overterminated
  isOpen := hnext.isOpen
  current := by
    have hle := h.grows.length_le
    rcases hnext.current with hc | hc
    · exact hc ▸ h.current
    · exact .inr (Nat.le_trans hle hc)
  others {i block} hi hne := by
    have hlt := (List.getElem?_eq_some_iff.mp hi).1
    exact hnext.others (h.others hi hne) (h.current_ne hlt hne)
  closed {i block} hi hne hw hnew := by
    by_cases hown : i = b.current.index ∨ b.blocks.length ≤ i
    · exact hnext.closed hi hne List.not_mem_nil hown
    -- A block that the second construct does not own is as the first one left it.
    · obtain ⟨hne', hlt⟩ : i ≠ b.current.index ∧ i < b.blocks.length := by omega
      have hb := List.getElem?_eq_getElem hlt
      rw [hnext.others hb hne', Option.some.injEq] at hi
      exact hi ▸ h.closed hb hne' hw hnew
  fresh {j} hj := by
    obtain ⟨hnew, hne, label, hblock⟩ := h.fresh hj
    have hlt := (List.getElem?_eq_some_iff.mp hblock).1
    have hindex : j.index ≠ b.current.index := fun heq => hne (BlockId.eq_of_index heq)
    refine ⟨hnew, fun heq => ?_, label, hnext.others hblock hindex⟩
    have := hnext.current_ne hlt hindex
    exact this (congrArg BlockId.index heq)

/-- The block that a construct enters next is empty. -/
theorem fresh_enter {next : BlockId} (h : Advances (next :: waiting) a b) (terminator : Terminator) :
    ((b.terminate terminator).moveTo next).Fresh := by
  obtain ⟨-, hne, label, hblock⟩ := h.fresh List.mem_cons_self
  refine ⟨label, ?_⟩
  change (b.terminate terminator).blocks[next.index]? = _
  rw [terminate_blocks, if_neg, hblock]
  exact fun heq => hne (BlockId.eq_of_index heq.symm)

/-- A construct leaves a block for the next one of those waiting. -/
theorem enter {next : BlockId} (h : Advances (next :: waiting) a b) (hnext : next ∉ waiting)
    (terminator : Terminator) : Advances waiting a ((b.terminate terminator).moveTo next) where
  grows := h.grows.trans ((grows_terminate h.isOpen _).trans (grows_moveTo _ _))
  overterminated := (h.isOpen.overterminated_terminate terminator).trans h.overterminated
  isOpen := (h.fresh_enter terminator).isOpen
  current := .inr (h.fresh List.mem_cons_self).1
  others {i block} hi hne := by
    have hlt := (List.getElem?_eq_some_iff.mp hi).1
    change (b.terminate terminator).blocks[i]? = _
    rw [terminate_blocks, if_neg (Ne.symm (h.current_ne hlt hne))]
    exact h.others hi hne
  closed {i block} hi hne hw hnew := by
    change (b.terminate terminator).blocks[i]? = _ at hi
    rw [terminate_blocks] at hi
    split at hi
    · obtain ⟨_, -, rfl⟩ := Option.map_eq_some_iff.mp hi
      rfl
    · rename_i hcurrent
      refine h.closed hi (Ne.symm hcurrent) ?_ hnew
      simp only [List.mem_cons, not_or]
      exact ⟨fun heq => hne (congrArg BlockId.index heq), hw⟩
  fresh {j} hj := by
    obtain ⟨hnew, hne, label, hblock⟩ := h.fresh (List.mem_cons_of_mem _ hj)
    refine ⟨hnew, fun heq => hnext ((show j = next from heq) ▸ hj), label, ?_⟩
    change (b.terminate terminator).blocks[j.index]? = _
    rw [terminate_blocks, if_neg, hblock]
    exact fun heq => hne (BlockId.eq_of_index heq.symm)

end Advances

end Builder

end Kaleidoscope.Ssa
