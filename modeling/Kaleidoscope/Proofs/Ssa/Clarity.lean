import Kaleidoscope.Proofs.Ssa.Listing
import Kaleidoscope.Proofs.Ssa.Names

/-!
# What is built stays clear

As long as labels and the names of slots are words, and parameters are used only to be stored in
their own slots, nothing in a body has to be guessed when it is read in a listing.
-/

namespace Kaleidoscope.Ssa

open Builder (numbered)
open Lexer (IsWord)

/-- The label is a word, and no operand is a parameter that is not stored in its own slot. -/
structure Block.Clear (arity : Nat) (block : Block) : Prop where
  label : IsWord block.label
  instructions : ∀ x ∈ block.instructions, x.Numbered arity
  terminator : ∀ t ∈ block.terminator, ∀ operand ∈ t.operands, arity ≤ operand.1.index

/-- A label with a number is a word if it is one without. -/
theorem isWord_numbered {label : String} (h : IsWord label) (n : Nat) : IsWord (numbered label n) := by
  cases n with
  | zero => exact h
  | succ n =>
    obtain ⟨first, rest, hlabel, halpha, hrest⟩ := h
    refine ⟨first, rest ++ Nat.toDigits 10 (n + 1), ?_, halpha, List.forall_mem_append.2 ⟨hrest, ?_⟩⟩
    · change (label ++ (n + 1).repr).toList = _
      rw [String.toList_append, hlabel, Nat.toList_repr, List.cons_append]
    · intro c hc
      rw [Char.isAlphanum, Number.Decimal.isDigit_toDigits hc, Bool.or_true]

namespace Builder

variable {arity : Nat} {b : Builder}

/-- All blocks are clear, and the names of slots are words. -/
structure Clear (arity : Nat) (b : Builder) : Prop where
  values : arity ≤ b.valueCount
  slots : ∀ name ∈ b.slots, IsWord name
  blocks : ∀ block ∈ b.blocks, block.Clear arity

/-- What a change of one block keeps holds of all of them. -/
theorem forall_mem_modify {P : Block → Prop} {blocks : List Block} (h : ∀ block ∈ blocks, P block)
    (i : Nat) {f : Block → Block} (hf : ∀ block, P block → P (f block)) :
    ∀ block ∈ blocks.modify i f, P block := by
  intro block hblock
  obtain ⟨k, hk⟩ := List.mem_iff_getElem?.1 hblock
  rw [List.getElem?_modify] at hk
  obtain ⟨earlier, hearlier, rfl⟩ := Option.map_eq_some_iff.1 hk
  have hP := h earlier (List.mem_of_getElem? hearlier)
  split
  · exact hf earlier hP
  · exact hP

/-- A function begins with an empty block. -/
theorem clear_start (name : String) (parameters : List String) :
    (start name parameters).Clear parameters.length where
  values := Nat.le_refl _
  slots := List.forall_mem_nil _
  blocks := List.forall_mem_singleton.2
    ⟨by decide, List.forall_mem_nil _, nofun⟩

namespace Clear

/-- An instruction without parameters among its operands may be added. -/
theorem append (h : b.Clear arity) {x : Instruction} (hx : x.Numbered arity) :
    (b.append x).Clear arity where
  values := h.values
  slots := h.slots
  blocks := forall_mem_modify h.blocks _ fun _ hblock =>
    { hblock with
      instructions := List.forall_mem_append.2 ⟨hblock.instructions, List.forall_mem_singleton.2 hx⟩ }

/-- A value that is computed is no parameter. -/
theorem appendValue (h : b.Clear arity) {x : ValueId → Instruction}
    (hx : ∀ target, (x target).Numbered arity) :
    (b.appendValue x).2.Clear arity ∧ arity ≤ (b.appendValue x).1.index := by
  have happended := h.append (hx ⟨b.valueCount⟩)
  exact ⟨⟨Nat.le_succ_of_le h.values, happended.slots, happended.blocks⟩, h.values⟩

/-- An operation without parameters among its operands may be added, and its value is no
parameter. -/
theorem assign (h : b.Clear arity) {operation : Operation} (hoperation : operation.Numbered arity) :
    (b.assign operation).2.Clear arity ∧ arity ≤ (b.assign operation).1.index :=
  h.appendValue fun _ => hoperation

/-- A call without parameters among its arguments may be added, and its value is no parameter. -/
theorem call (h : b.Clear arity) {callee : String} {arguments : List ValueId} (hcallee : IsCallee callee)
    (harguments : ∀ value ∈ arguments, arity ≤ value.index) :
    (b.call callee arguments).2.Clear arity ∧ arity ≤ (b.call callee arguments).1.index :=
  h.appendValue fun _ => ⟨hcallee, harguments⟩

/-- A terminator without parameters among its operands may be added. -/
theorem terminate (h : b.Clear arity) {terminator : Terminator}
    (hterminator : ∀ operand ∈ terminator.operands, arity ≤ operand.1.index) :
    (b.terminate terminator).Clear arity where
  values := h.values
  slots := h.slots
  blocks := forall_mem_modify h.blocks _ fun _ hblock =>
    { hblock with
      terminator := by
        rintro _ ⟨⟩
        exact hterminator }

/-- A branch may be added. -/
theorem branch (h : b.Clear arity) (block : BlockId) : (b.terminate (.branch block)).Clear arity :=
  h.terminate (List.forall_mem_nil _)

/-- A branch on a condition that is no parameter may be added. -/
theorem branchIf (h : b.Clear arity) {condition : ValueId} (hcondition : arity ≤ condition.index)
    (consequent alternative : BlockId) :
    (b.terminate (.branchIf condition consequent alternative)).Clear arity :=
  h.terminate (List.forall_mem_singleton.2 hcondition)

/-- A block whose label is a word may be added. -/
theorem appendBlock (h : b.Clear arity) {label : String} (hlabel : IsWord label) :
    (b.appendBlock label).2.Clear arity where
  values := h.values
  slots := h.slots
  blocks := List.forall_mem_append.2 ⟨h.blocks, List.forall_mem_singleton.2
    ⟨isWord_numbered hlabel _, List.forall_mem_nil _, nofun⟩⟩

/-- Another block may be gone to. -/
theorem moveTo (h : b.Clear arity) (block : BlockId) : (b.moveTo block).Clear arity :=
  ⟨h.values, h.slots, h.blocks⟩

/-- A slot whose name is a word may be added. -/
theorem allocate (h : b.Clear arity) {name : String} (hname : IsWord name) :
    (b.allocate name).2.Clear arity :=
  ⟨h.values, List.forall_mem_append.2 ⟨h.slots, List.forall_mem_singleton.2 hname⟩, h.blocks⟩

end Clear

end Builder

/-- What an instruction computes is no parameter. -/
theorem Body.Named.le_result {arity : Nat} {body : Body} (h : body.Named arity) {block : Block}
    (hblock : block ∈ body.blocks) {x : Instruction} (hx : x ∈ block.instructions)
    {result : ValueId × Kind} (hresult : x.result? = some result) : arity ≤ result.1.index := by
  have hmem : result.1 ∈ Ssa.destinations body.blocks :=
    List.mem_flatMap.2 ⟨block, hblock, List.mem_filterMap.2 ⟨x, hx, by rw [hresult, Option.map_some]⟩⟩
  have hcount := h.destinations result.1
  split at hcount
  · rename_i hrange
    exact hrange.1
  · exact (List.count_eq_zero.1 hcount hmem).elim

/-- Everything in a block of a complete body can be told from its lines if the block is clear. -/
theorem Body.WellFormed.showsBlock {parameters : List String} {body : Body}
    (h : body.WellFormed parameters.length) {block : Block} (hblock : block ∈ body.blocks)
    (hclear : block.Clear parameters.length) : (body.naming parameters).ShowsBlock block := by
  obtain ⟨j, hj⟩ := List.mem_iff_getElem?.1 hblock
  have hlength : (body.naming parameters).labels.length = body.blocks.length := List.length_map _
  refine ⟨hclear.label, fun x hx => ⟨hclear.instructions x hx, fun result hresult => ?_, ?_⟩, ?_⟩
  · exact h.named.le_result hblock hx hresult
  · -- A phi gets its values from where control comes from.
    rintro target op rfl
    cases op with
    | phi incoming =>
      obtain ⟨l, hl⟩ := List.mem_iff_getElem?.1 hx
      have hplace : instructionAt? body.blocks ⟨j⟩ l = some (.assign target (.phi incoming)) := by
        rw [instructionAt?, hj]
        exact hl
      have hjoins := (h.sound.instructions hplace).phi target incoming rfl
      intro source hsource
      rw [hlength]
      exact ((hjoins.predecessors source).1 hsource).lt_length
    | _ => trivial
  · obtain ⟨t, ht⟩ := Option.isSome_iff_exists.1 (h.terminated block hblock)
    refine ⟨t, ht, hclear.terminator t ht, fun target htarget => ?_⟩
    have hedge : Edge body.blocks ⟨j⟩ target := by
      refine ⟨t, ?_, htarget⟩
      rw [terminatorAt?, hj]
      exact ht
    rw [hlength]
    exact (h.sound.edges hedge).2

end Kaleidoscope.Ssa
