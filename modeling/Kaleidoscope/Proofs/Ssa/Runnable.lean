import Kaleidoscope.Proofs.Ssa.WellFormed
import Kaleidoscope.Ssa.Program

/-!
# Bodies that run without a fault

What a body needs in order to run is less than what makes it well-formed. Values may be computed at
several places, and a phi may join truth values or list alternatives that are never taken. It is
enough that each value has one kind, and that on every path from the entry to a use something has
been passed that makes the use possible.
-/

namespace Kaleidoscope.Ssa

/-- The operation can be computed where values have these kinds, and its value has the given one. -/
def Operation.Typed (typing : ValueId → Kind) (target : Kind) : Operation → Prop
  | constant _ | load _ => target = .number
  | arithmetic _ left right =>
    typing left = .number ∧ typing right = .number ∧ target = .number
  | compare _ left right => typing left = .number ∧ typing right = .number ∧ target = .truth
  | widen value => typing value = .truth ∧ target = .number
  | phi incoming => ∀ alternative ∈ incoming, typing alternative.1 = target

/-- The kinds fit the instruction. -/
def Instruction.Typed (typing : ValueId → Kind) : Instruction → Prop
  | assign target operation => operation.Typed typing (typing target)
  | store _ value => typing value = .number
  | call target _ arguments =>
    (∀ argument ∈ arguments, typing argument = .number) ∧ typing target = .number

/-- The kinds fit the terminator. -/
def Terminator.Typed (typing : ValueId → Kind) : Terminator → Prop
  | branch _ => True
  | branchIf condition _ _ => typing condition = .truth
  | ret value => typing value = .number

/-- The instruction computes the value. -/
def Instruction.Computes (value : ValueId) (x : Instruction) : Prop :=
  x.result?.map Prod.fst = some value

/-- An instruction with the property is passed on the way through the blocks `before` to the place
`l` of the block `j`. -/
def Passed (blocks : List Block) (P : Instruction → Prop) (before : List BlockId) (j : BlockId)
    (l : Nat) : Prop :=
  ∃ i k x, instructionAt? blocks i k = some x ∧ P x ∧ (i ∈ before ∨ i = j ∧ k < l)

/-- Such an instruction is passed on every path from the entry to the place. -/
def Inevitable (blocks : List Block) (P : Instruction → Prop) (j : BlockId) (l : Nat) : Prop :=
  ∀ before, Path (Edge blocks) (j :: before) j → Passed blocks P before j l

/-- The value is a parameter, or it has been computed on every path to the place. -/
def Defined (arity : Nat) (blocks : List Block) (value : ValueId) (j : BlockId) (l : Nat) : Prop :=
  value.index < arity ∨ Inevitable blocks (Instruction.Computes value) j l

/-- The phi does not stand in the entry block, and for each predecessor it has an alternative. The
first one of the predecessor names a value that is defined at its end. -/
def Chooses (arity : Nat) (blocks : List Block) (incoming : List (ValueId × BlockId)) (j : BlockId) :
    Prop :=
  j ≠ .entry ∧ ∀ i, Edge blocks i j →
    ∃ alternative, incoming.find? (·.2 = i) = some alternative ∧
      Defined arity blocks alternative.1 i (endOf blocks i)

/-- The instruction can be executed whenever control gets to the place `l` of the block `j`. What it
uses needs no bound, since what has been computed or stored is within bounds. -/
structure Instruction.Executable (arity values slots : Nat) (typing : ValueId → Kind)
    (blocks : List Block) (j : BlockId) (l : Nat) (x : Instruction) : Prop where
  typed : x.Typed typing
  result : ∀ value, x.Computes value → value.index < values
  slot : ∀ slot, x.Stores slot → slot.index < slots
  /-- The operands of a phi are none of these. -/
  operands : ∀ operand ∈ x.operands, Defined arity blocks operand.1 j l
  load : ∀ target slot, x = .assign target (.load slot) →
    Inevitable blocks (Instruction.Stores slot) j l
  phi : ∀ target incoming, x = .assign target (.phi incoming) → Chooses arity blocks incoming j

/-- The terminator can be executed whenever control gets to the end of the block `j`. -/
structure Terminator.Executable (arity : Nat) (typing : ValueId → Kind) (blocks : List Block)
    (j : BlockId) (x : Terminator) : Prop where
  typed : x.Typed typing
  targets : ∀ block ∈ x.targets, block.index < blocks.length
  operands : ∀ operand ∈ x.operands, Defined arity blocks operand.1 j (endOf blocks j)

/-- A body that a function with so many parameters can run without a fault. -/
structure Body.Runnable (arity : Nat) (typing : ValueId → Kind) (body : Body) : Prop where
  entry : body.blocks ≠ []
  terminated : ∀ block ∈ body.blocks, block.terminator.isSome
  parameters : arity ≤ body.valueCount
  numbers : ∀ value, value.index < arity → typing value = .number
  instructions : ∀ {j l x}, instructionAt? body.blocks j l = some x →
    x.Executable arity body.valueCount body.slots.length typing body.blocks j l
  terminators : ∀ {j x}, terminatorAt? body.blocks j = some x →
    x.Executable arity typing body.blocks j

/-- All bodies of the program are runnable, each with kinds of its own. -/
def Program.Runnable (p : Program) : Prop :=
  ∀ f ∈ p.functions, ∀ body ∈ f.body, ∃ typing, body.Runnable f.arity typing

section

variable {arity : Nat} {blocks : List Block} {P : Instruction → Prop} {before : List BlockId}
  {i j : BlockId} {l : Nat}

/-- A path begins with its end when it is read backwards. -/
theorem Path.exists_eq_cons {edge : BlockId → BlockId → Prop} {visited : List BlockId}
    (h : Path edge visited j) : ∃ before, visited = j :: before := by
  cases h with
  | entry => exact ⟨[], rfl⟩
  | @step visited => exact ⟨visited, rfl⟩

/-- A path to any other block than the entry comes from a predecessor. -/
theorem Path.exists_predecessor {edge : BlockId → BlockId → Prop}
    (h : Path edge (j :: before) j) (hj : j ≠ .entry) :
    ∃ i earlier, before = i :: earlier ∧ Path edge (i :: earlier) i ∧ edge i j := by
  cases h with
  | entry => exact (hj rfl).elim
  | @step _ i _ hpath hedge =>
    obtain ⟨earlier, rfl⟩ := hpath.exists_eq_cons
    exact ⟨i, earlier, rfl, hpath, hedge⟩

/-- Nothing is passed before the first instruction. -/
theorem not_passed_start : ¬ Passed blocks P [] j 0 := by
  rintro ⟨i, k, x, -, -, hmem | ⟨-, hlt⟩⟩
  · cases hmem
  · cases hlt

/-- More is passed at a later place. -/
theorem Passed.mono {l' : Nat} (h : Passed blocks P before j l) (hle : l ≤ l') :
    Passed blocks P before j l' := by
  obtain ⟨i, k, x, hx, hP, hplace⟩ := h
  exact ⟨i, k, x, hx, hP, hplace.imp_right fun hplace =>
    hplace.imp_right fun hlt => Nat.lt_of_lt_of_le hlt hle⟩

/-- Behind an instruction, nothing more than this instruction is passed. -/
theorem Passed.of_succ {x : Instruction} (h : Passed blocks P before j (l + 1))
    (hx : instructionAt? blocks j l = some x) : Passed blocks P before j l ∨ P x := by
  obtain ⟨i, k, y, hy, hP, hmem | ⟨rfl, hlt⟩⟩ := h
  · exact .inl ⟨i, k, y, hy, hP, .inl hmem⟩
  · rcases Nat.lt_succ_iff_lt_or_eq.1 hlt with hlt | rfl
    · exact .inl ⟨i, k, y, hy, hP, .inr ⟨rfl, hlt⟩⟩
    · rw [hx] at hy
      exact .inr (Option.some.inj hy ▸ hP)

/-- In another block, nothing more is passed than at the end of the block before it. -/
theorem Passed.of_enter (h : Passed blocks P (i :: before) j 0) (hl : endOf blocks i ≤ l) :
    Passed blocks P before i l := by
  obtain ⟨i', k, x, hx, hP, hmem | ⟨-, hlt⟩⟩ := h
  · refine ⟨i', k, x, hx, hP, ?_⟩
    rcases List.mem_cons.1 hmem with rfl | hmem
    · exact .inr ⟨rfl, Nat.lt_of_lt_of_le (lt_endOf hx) hl⟩
    · exact .inl hmem
  · cases hlt

/-- What is passed before the end of a block is passed before anything in the blocks behind it. -/
theorem Passed.enter {k : Nat} (h : Passed blocks P before i l) (j : BlockId) :
    Passed blocks P (i :: before) j k := by
  obtain ⟨i', l', x, hx, hP, hmem | ⟨rfl, -⟩⟩ := h
  · exact ⟨i', l', x, hx, hP, .inl (List.mem_cons_of_mem _ hmem)⟩
  · exact ⟨i', l', x, hx, hP, .inl List.mem_cons_self⟩

/-- What stands before a place in its block is passed on every path to the place. -/
theorem inevitable_of_lt {k : Nat} {x : Instruction} (hx : instructionAt? blocks j k = some x)
    (hP : P x) (hlt : k < l) : Inevitable blocks P j l :=
  fun _ _ => ⟨j, k, x, hx, hP, .inr ⟨rfl, hlt⟩⟩

end

/-- A loop that goes on as long as its phi says so. The phi joins truth values, one of them its
own. -/
def spin : Body where
  slots := []
  blocks := [
    ⟨"entry", [.assign ⟨1⟩ (.compare .unorderedOrLess ⟨0⟩ ⟨0⟩)], some (.branch ⟨1⟩)⟩,
    ⟨"loop", [.assign ⟨2⟩ (.phi [(⟨1⟩, ⟨0⟩), (⟨2⟩, ⟨1⟩)])],
      some (.branchIf ⟨2⟩ ⟨1⟩ ⟨2⟩)⟩,
    ⟨"after", [], some (.ret ⟨0⟩)⟩]
  valueCount := 3

/-- All values but the parameter are truth values. -/
def spinTyping (value : ValueId) : Kind := if value.index = 0 then .number else .truth

/-- The comparison of the entry has been computed at the end of the entry. -/
theorem defined_compare_spin : Defined 1 spin.blocks ⟨1⟩ ⟨0⟩ 1 := by
  have hx : instructionAt? spin.blocks ⟨0⟩ 0 =
      some (.assign ⟨1⟩ (.compare .unorderedOrLess ⟨0⟩ ⟨0⟩)) := rfl
  exact .inr (inevitable_of_lt hx rfl Nat.zero_lt_one)

/-- The phi has been computed at the end of each round. -/
theorem defined_phi_spin : Defined 1 spin.blocks ⟨2⟩ ⟨1⟩ 1 := by
  have hx : instructionAt? spin.blocks ⟨1⟩ 0 =
      some (.assign ⟨2⟩ (.phi [(⟨1⟩, ⟨0⟩), (⟨2⟩, ⟨1⟩)])) := rfl
  exact .inr (inevitable_of_lt hx rfl Nat.zero_lt_one)

/-- The phi of the loop has a defined value for each way to get to it. -/
theorem chooses_spin : Chooses 1 spin.blocks [(⟨1⟩, ⟨0⟩), (⟨2⟩, ⟨1⟩)] ⟨1⟩ := by
  refine ⟨by decide, fun i ⟨x, hx, hmem⟩ => ?_⟩
  obtain ⟨_ | _ | _ | i⟩ := i
  · exact ⟨(⟨1⟩, ⟨0⟩), rfl, defined_compare_spin⟩
  · exact ⟨(⟨2⟩, ⟨1⟩), rfl, defined_phi_spin⟩
  · cases hx
    cases hmem
  · cases hx

/-- The loop meets all conditions. -/
theorem runnable_spin : spin.Runnable 1 spinTyping := by
  have hparameter (j : BlockId) (l : Nat) : Defined 1 spin.blocks ⟨0⟩ j l := .inl Nat.zero_lt_one
  constructor
  case entry => exact List.cons_ne_nil _ _
  case terminated => decide
  case parameters => decide
  case numbers =>
    intro value hvalue
    rw [spinTyping, if_pos (Nat.lt_one_iff.1 hvalue)]
  case instructions =>
    intro j l x hx
    obtain ⟨_ | _ | _ | j⟩ := j
    · obtain _ | l := l
      · cases hx
        constructor
        case typed => exact ⟨rfl, rfl, rfl⟩
        case result =>
          intro value hvalue
          cases hvalue
          decide
        case slot => exact fun slot ⟨v, hv⟩ => by cases hv
        case operands =>
          exact List.forall_mem_cons.2 ⟨hparameter _ _, List.forall_mem_singleton.2 (hparameter _ _)⟩
        case load => exact fun _ _ h => by cases h
        case phi => exact fun _ _ h => by cases h
      · cases hx
    · obtain _ | l := l
      · cases hx
        constructor
        case typed => exact List.forall_mem_cons.2 ⟨rfl, List.forall_mem_singleton.2 rfl⟩
        case result =>
          intro value hvalue
          cases hvalue
          decide
        case slot => exact fun slot ⟨v, hv⟩ => by cases hv
        case operands => exact fun _ h => by cases h
        case load => exact fun _ _ h => by cases h
        case phi =>
          intro target incoming h
          cases h
          exact chooses_spin
      · cases hx
    · cases hx
    · cases hx
  case terminators =>
    intro j x hx
    obtain ⟨_ | _ | _ | j⟩ := j
    · cases hx
      exact ⟨trivial, by decide, fun _ h => by cases h⟩
    · cases hx
      exact ⟨rfl, by decide, List.forall_mem_singleton.2 defined_phi_spin⟩
    · cases hx
      exact ⟨rfl, by decide, List.forall_mem_singleton.2 (hparameter _ _)⟩
    · cases hx

end Kaleidoscope.Ssa
