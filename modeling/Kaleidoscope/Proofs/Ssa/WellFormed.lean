import Kaleidoscope.Proofs.Ssa.ControlFlow

/-!
# Well-formed bodies

A body is well-formed if its names are unique, its blocks are connected, and whatever an instruction
uses has been computed or stored whenever control gets there. Uses and results are numbers or truth
values. A body under construction may have blocks that nothing leads to so far.
-/

namespace Kaleidoscope.Ssa

/-- Truth values are no numbers. -/
inductive Kind where
  | number
  | truth
deriving DecidableEq

/-- Only comparisons compute truth values. -/
def Operation.kind : Operation → Kind
  | compare .. => .truth
  | _ => .number

/-- The operands of an operation. Those of a phi are not used where it stands. -/
def Operation.operands : Operation → List (ValueId × Kind)
  | arithmetic _ left right | compare _ left right => [(left, .number), (right, .number)]
  | widen value => [(value, .truth)]
  | constant _ | load _ | phi _ => []

namespace Instruction

/-- The value that is computed. -/
def result? : Instruction → Option (ValueId × Kind)
  | assign target operation => some (target, operation.kind)
  | call target _ _ => some (target, .number)
  | store _ _ => none

/-- The operands of an instruction. -/
def operands : Instruction → List (ValueId × Kind)
  | assign _ operation => operation.operands
  | store _ value => [(value, .number)]
  | call _ _ arguments => arguments.map (·, .number)

/-- The slot that is read or written. -/
def slot? : Instruction → Option SlotId
  | assign _ (.load slot) => some slot
  | store slot _ => some slot
  | _ => none

/-- The slot is written. -/
def Stores (slot : SlotId) (instruction : Instruction) : Prop := ∃ value, instruction = .store slot value

end Instruction

namespace Terminator

/-- The blocks that control can be passed to. -/
def targets : Terminator → List BlockId
  | branch block => [block]
  | branchIf _ consequent alternative => [consequent, alternative]
  | ret _ => []

/-- The operands of a terminator. -/
def operands : Terminator → List (ValueId × Kind)
  | branch _ => []
  | branchIf condition _ _ => [(condition, .truth)]
  | ret value => [(value, .number)]

end Terminator

/-- The instruction at a place. -/
def instructionAt? (blocks : List Block) (i : BlockId) (k : Nat) : Option Instruction :=
  blocks[i.index]?.bind fun block => block.instructions[k]?

/-- The terminator of a block. -/
def terminatorAt? (blocks : List Block) (i : BlockId) : Option Terminator :=
  blocks[i.index]?.bind Block.terminator

/-- The place behind the last instruction of a block. -/
def endOf (blocks : List Block) (i : BlockId) : Nat :=
  (blocks[i.index]?.map fun block => block.instructions.length).getD 0

/-- Control can pass from one block to another one. -/
def Edge (blocks : List Block) (i j : BlockId) : Prop :=
  ∃ terminator ∈ terminatorAt? blocks i, j ∈ terminator.targets

/-- Whenever control gets to the place `l` of the block `j`, an instruction with the property has
been executed. -/
def Preceded (blocks : List Block) (P : Instruction → Prop) (j : BlockId) (l : Nat) : Prop :=
  ∃ i k instruction, instructionAt? blocks i k = some instruction ∧ P instruction ∧
    (i = j ∧ k < l ∨ i ≠ j ∧ Dominates (Edge blocks) i j)

/-- Whenever control gets to the place, the value has been computed and is of the kind. Parameters
are numbers. -/
def Available (arity : Nat) (blocks : List Block) (operand : ValueId × Kind) (j : BlockId) (l : Nat) :
    Prop :=
  operand.1.index < arity ∧ operand.2 = .number ∨
    Preceded blocks (fun instruction => instruction.result? = some operand) j l

/-- The values that instructions compute. -/
def destinations (blocks : List Block) : List ValueId :=
  blocks.flatMap fun block => block.instructions.filterMap fun instruction =>
    instruction.result?.map Prod.fst

/-- Labels are distinct. The values that are no parameters are the destinations of one instruction
each. -/
structure Body.Named (arity : Nat) (body : Body) : Prop where
  labels : (body.blocks.map Block.label).Nodup
  values : arity ≤ body.valueCount
  destinations : ∀ value, (destinations body.blocks).count value =
    if arity ≤ value.index ∧ value.index < body.valueCount then 1 else 0

/-- A phi in the block `j` has one value for each predecessor, which is available at its end. -/
structure Joins (arity : Nat) (blocks : List Block) (incoming : List (ValueId × BlockId)) (j : BlockId) :
    Prop where
  nodup : (incoming.map Prod.snd).Nodup
  predecessors : ∀ i, i ∈ incoming.map Prod.snd ↔ Edge blocks i j
  available : ∀ value block, (value, block) ∈ incoming →
    Available arity blocks (value, .number) block (endOf blocks block)

/-- An instruction may stand at the place `l` of the block `j`. -/
structure Instruction.Admitted (arity slots : Nat) (blocks : List Block) (j : BlockId) (l : Nat)
    (x : Instruction) : Prop where
  operands : ∀ operand ∈ x.operands, Available arity blocks operand j l
  phi : ∀ target incoming, x = .assign target (.phi incoming) → Joins arity blocks incoming j
  /-- What is read has been written. -/
  load : ∀ target slot, x = .assign target (.load slot) → Preceded blocks (Instruction.Stores slot) j l
  slot : ∀ slot ∈ x.slot?, slot.index < slots

/-- Control and data flow in blocks over so many slots. The blocks `waiting` need not be reached so
far. -/
structure Sound (arity slots : Nat) (waiting : List BlockId) (blocks : List Block) : Prop where
  /-- No edge leads back to the entry or nowhere. -/
  edges : ∀ {i j}, Edge blocks i j → j ≠ .entry ∧ j.index < blocks.length
  reachable : ∀ {j : BlockId}, j.index < blocks.length → j ∉ waiting → Reachable (Edge blocks) j
  instructions : ∀ {j l instruction}, instructionAt? blocks j l = some instruction →
    instruction.Admitted arity slots blocks j l
  terminators : ∀ {j terminator}, terminatorAt? blocks j = some terminator →
    ∀ operand ∈ terminator.operands, Available arity blocks operand j (endOf blocks j)

/-- A complete body of a function with so many parameters. -/
structure Body.WellFormed (arity : Nat) (body : Body) : Prop where
  entry : BlockId.entry.index < body.blocks.length
  named : body.Named arity
  sound : Sound arity body.slots.length [] body.blocks
  terminated : ∀ block ∈ body.blocks, block.terminator.isSome

section Growing

variable {arity : Nat} {blocks later : List Block} {P : Instruction → Prop} {i j : BlockId} {l l' : Nat}

/-- An edge begins in a block. -/
theorem Edge.lt_length (h : Edge blocks i j) : i.index < blocks.length := by
  obtain ⟨terminator, hterminator, -⟩ := h
  obtain ⟨block, hblock, -⟩ := Option.bind_eq_some_iff.1 hterminator
  exact (List.getElem?_eq_some_iff.1 hblock).1

/-- An instruction stands before the end of its block. -/
theorem lt_endOf {x : Instruction} (h : instructionAt? blocks j l = some x) : l < endOf blocks j := by
  obtain ⟨block, hblock, hx⟩ := Option.bind_eq_some_iff.1 h
  rw [endOf, hblock]
  exact (List.getElem?_eq_some_iff.1 hx).1

/-- The instructions stay where they are. -/
structure Keeps (blocks later : List Block) : Prop where
  instruction : ∀ {i k x}, instructionAt? blocks i k = some x → instructionAt? later i k = some x
  endOf : ∀ i, endOf blocks i ≤ endOf later i

/-- What has been executed whenever control gets to a place has been executed at a later place of a
block that is dominated as before. -/
theorem Preceded.mono (h : Preceded blocks P j l) (hkeeps : Keeps blocks later)
    (hdominates : ∀ i, Dominates (Edge blocks) i j → Dominates (Edge later) i j) (hle : l ≤ l') :
    Preceded later P j l' := by
  obtain ⟨i, k, x, hx, hP, hplace⟩ := h
  refine ⟨i, k, x, hkeeps.instruction hx, hP, ?_⟩
  rcases hplace with ⟨rfl, hk⟩ | ⟨hne, hi⟩
  · exact .inl ⟨rfl, Nat.lt_of_lt_of_le hk hle⟩
  · exact .inr ⟨hne, hdominates i hi⟩

/-- An available operand stays available while blocks grow. -/
theorem Available.mono {operand : ValueId × Kind} (h : Available arity blocks operand j l)
    (hkeeps : Keeps blocks later)
    (hdominates : ∀ i, Dominates (Edge blocks) i j → Dominates (Edge later) i j) (hle : l ≤ l') :
    Available arity later operand j l' :=
  h.imp_right fun hpreceded => hpreceded.mono hkeeps hdominates hle

/-- A phi keeps its values if no edge to its block is added and its predecessors are dominated as
before. -/
theorem Joins.mono {incoming : List (ValueId × BlockId)} (h : Joins arity blocks incoming j)
    (hkeeps : Keeps blocks later) (hedges : ∀ i, Edge later i j ↔ Edge blocks i j)
    (hdominates : ∀ i k, Edge blocks k j → Dominates (Edge blocks) i k → Dominates (Edge later) i k) :
    Joins arity later incoming j where
  nodup := h.nodup
  predecessors i := (h.predecessors i).trans (hedges i).symm
  available value block hmem := by
    have hedge := (h.predecessors block).1 (List.mem_map_of_mem hmem)
    exact (h.available value block hmem).mono hkeeps (fun i => hdominates i block hedge) (hkeeps.endOf _)

/-- An instruction may stay where it is if its block is dominated as before, and a phi if its
predecessors are the same and dominated as before. -/
theorem Instruction.Admitted.mono {slots slots' : Nat} {x : Instruction}
    (h : x.Admitted arity slots blocks j l) (hkeeps : Keeps blocks later)
    (hdominates : ∀ i k, k = j ∨ Edge blocks k j → Dominates (Edge blocks) i k →
      Dominates (Edge later) i k)
    (hedges : ∀ target incoming, x = .assign target (.phi incoming) →
      ∀ i, Edge later i j ↔ Edge blocks i j)
    (hslots : slots ≤ slots') : x.Admitted arity slots' later j l where
  operands operand hoperand :=
    (h.operands operand hoperand).mono hkeeps (fun i => hdominates i j (.inl rfl)) (Nat.le_refl _)
  phi target incoming hx :=
    (h.phi target incoming hx).mono hkeeps (hedges target incoming hx)
      fun i k hedge => hdominates i k (.inr hedge)
  load target slot hx :=
    (h.load target slot hx).mono hkeeps (fun i => hdominates i j (.inl rfl)) (Nat.le_refl _)
  slot slot hslot := Nat.lt_of_lt_of_le (h.slot slot hslot) hslots

/-- Edges depend on terminators alone. -/
theorem edge_congr (h : ∀ i, terminatorAt? later i = terminatorAt? blocks i) :
    Edge later = Edge blocks := by
  funext i j
  unfold Edge
  rw [h]

/-- Instructions and waiting blocks may be added as long as no edge is. -/
theorem Sound.extend {slots : Nat} {waiting waiting' : List BlockId}
    (h : Sound arity slots waiting blocks) (hkeeps : Keeps blocks later)
    (hterminators : ∀ i, terminatorAt? later i = terminatorAt? blocks i)
    (hlength : blocks.length ≤ later.length)
    (hwaiting : ∀ {j : BlockId}, j.index < later.length → j ∉ waiting' →
      j.index < blocks.length ∧ j ∉ waiting)
    (hinstructions : ∀ {j l x}, instructionAt? later j l = some x →
      x.Admitted arity slots blocks j l) : Sound arity slots waiting' later := by
  have hedge := edge_congr hterminators
  have hdominates {i j : BlockId} (hi : Dominates (Edge blocks) i j) : Dominates (Edge later) i j := by
    rw [hedge]
    exact hi
  constructor
  case edges =>
    intro i j hij
    rw [hedge] at hij
    exact (h.edges hij).imp_right fun hj => Nat.lt_of_lt_of_le hj hlength
  case reachable =>
    intro j hj hnot
    obtain ⟨hj, hnot⟩ := hwaiting hj hnot
    rw [hedge]
    exact h.reachable hj hnot
  case instructions =>
    intro j l x hx
    exact (hinstructions hx).mono hkeeps (fun _ _ _ => hdominates) (fun _ _ _ i => by rw [hedge])
      (Nat.le_refl _)
  case terminators =>
    intro j terminator hterminator operand hoperand
    rw [hterminators] at hterminator
    exact (h.terminators hterminator operand hoperand).mono hkeeps (fun _ => hdominates)
      (hkeeps.endOf j)

end Growing

end Kaleidoscope.Ssa
