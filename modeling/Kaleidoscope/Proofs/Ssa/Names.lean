import Kaleidoscope.Proofs.Ssa.Growth
import Kaleidoscope.Proofs.Ssa.Labels
import Kaleidoscope.Proofs.Ssa.WellFormed
import Mathlib.Data.List.Nodup

/-!
# Names stay unique while a body is built

Whatever is appended, a new block has a label of its own, and a new value is the destination of the
one instruction that computes it.
-/

namespace Kaleidoscope.Ssa.Builder

variable {b : Builder}

/-- An instruction adds no block. -/
theorem length_append (b : Builder) (x : Instruction) :
    (b.append x).blocks.length = b.blocks.length :=
  List.length_modify ..

/-- A terminator adds no block. -/
theorem length_terminate (b : Builder) (terminator : Terminator) :
    (b.terminate terminator).blocks.length = b.blocks.length :=
  List.length_modify ..

/-- One block is added. -/
theorem length_appendBlock (b : Builder) (label : String) :
    (b.appendBlock label).2.blocks.length = b.blocks.length + 1 :=
  List.length_append

/-- An instruction adds its destination to the others. -/
theorem count_destinations_append (hlt : b.current.index < b.blocks.length) (x : Instruction)
    (value : ValueId) :
    (destinations (b.append x).blocks).count value =
      (destinations b.blocks).count value + (x.result?.map Prod.fst).toList.count value := by
  obtain ⟨before, block, behind, hblocks, -, hmodify⟩ := List.exists_of_modify
    (fun block : Block => { block with instructions := block.instructions ++ [x] }) hlt
  have happend : (b.append x).blocks = before ++
      { block with instructions := block.instructions ++ [x] } :: behind := hmodify
  have hone : [x].filterMap (fun instruction => instruction.result?.map Prod.fst) =
      (x.result?.map Prod.fst).toList := by
    cases hresult : x.result? <;> simp [hresult]
  rw [happend, hblocks]
  simp only [destinations, List.flatMap_append, List.flatMap_cons, List.filterMap_append,
    List.count_append, hone]
  omega

/-- What a change of one block keeps stays the same for all of them. -/
theorem map_modify {α : Type} (blocks : List Block) (i : Nat) {f : Block → Block} {g : Block → α}
    (hf : ∀ block, g (f block) = g block) : (blocks.modify i f).map g = blocks.map g := by
  refine List.ext_getElem? fun k => ?_
  rw [List.getElem?_map, List.getElem?_map, List.getElem?_modify]
  cases blocks[k]? with
  | none => rfl
  | some block =>
    by_cases hk : i = k
    · simp [hk, hf]
    · simp [hk]

/-- An instruction changes no label. -/
theorem map_label_append (b : Builder) (x : Instruction) :
    (b.append x).blocks.map Block.label = b.blocks.map Block.label :=
  map_modify _ _ fun _ => rfl

/-- A terminator changes no label. -/
theorem map_label_terminate (b : Builder) (terminator : Terminator) :
    (b.terminate terminator).blocks.map Block.label = b.blocks.map Block.label :=
  map_modify _ _ fun _ => rfl

/-- A terminator computes nothing. -/
theorem destinations_terminate (b : Builder) (terminator : Terminator) :
    destinations (b.terminate terminator).blocks = destinations b.blocks := by
  unfold destinations
  rw [List.flatMap_def, List.flatMap_def]
  exact congrArg List.flatten (map_modify _ _ fun _ => rfl)

/-- In the beginning there are no values but the parameters. -/
theorem named_start (name : String) (parameters : List String) :
    (start name parameters).body.Named parameters.length where
  labels := List.nodup_singleton _
  values := Nat.le_refl _
  destinations value := by
    have : ¬ (parameters.length ≤ value.index ∧ value.index < parameters.length) := by omega
    exact (if_neg this).symm

/-- An instruction without destination changes no name. -/
theorem named_append (h : b.body.Named b.parameters.length) (hlt : b.current.index < b.blocks.length)
    {x : Instruction} (hx : x.result? = none) : (b.append x).body.Named b.parameters.length where
  labels := (b.map_label_append x).symm ▸ h.labels
  values := h.values
  destinations value := by
    refine (count_destinations_append hlt x value).trans ?_
    rw [hx]
    exact h.destinations value

/-- A new value is the destination of the instruction that computes it. -/
theorem named_appendValue (h : b.body.Named b.parameters.length)
    (hlt : b.current.index < b.blocks.length) {x : ValueId → Instruction} {kind : Kind}
    (hx : ∀ target, (x target).result? = some (target, kind)) :
    (b.appendValue x).2.body.Named b.parameters.length where
  labels := (b.map_label_append _).symm ▸ h.labels
  values := Nat.le_succ_of_le h.values
  destinations value := by
    have hvalues : b.parameters.length ≤ b.valueCount := h.values
    have hcount : (destinations b.blocks).count value =
        if b.parameters.length ≤ value.index ∧ value.index < b.valueCount then 1 else 0 :=
      h.destinations value
    refine (count_destinations_append hlt _ value).trans ?_
    rw [hcount, hx, Option.map_some, Option.toList_some, List.count_singleton]
    change _ = if b.parameters.length ≤ value.index ∧ value.index < b.valueCount + 1 then 1 else 0
    by_cases hvalue : value = ⟨b.valueCount⟩
    · subst hvalue
      simp [hvalues]
    · have hne : value.index ≠ b.valueCount := fun heq => hvalue (congrArg ValueId.mk heq)
      have hother : ((⟨b.valueCount⟩ : ValueId) == value) = false :=
        beq_eq_false_iff_ne.2 (Ne.symm hvalue)
      have hrange : value.index < b.valueCount + 1 ↔ value.index < b.valueCount := by omega
      simp only [hother, hrange, Bool.false_eq_true, if_false, Nat.add_zero]

/-- A terminator changes no name. -/
theorem named_terminate (h : b.body.Named b.parameters.length) (terminator : Terminator) :
    (b.terminate terminator).body.Named b.parameters.length where
  labels := (b.map_label_terminate terminator).symm ▸ h.labels
  values := h.values
  destinations value :=
    (congrArg (List.count value) (b.destinations_terminate terminator)).trans (h.destinations value)

/-- A new block has a label of its own and computes nothing. -/
theorem named_appendBlock (h : b.body.Named b.parameters.length) (label : String) :
    (b.appendBlock label).2.body.Named b.parameters.length where
  labels := by
    have hlabels := h.labels.concat (b.freshLabel_notMem label)
    rw [List.concat_eq_append] at hlabels
    change ((b.blocks ++ [_]).map Block.label).Nodup
    rw [List.map_append]
    exact hlabels
  values := h.values
  destinations value := by
    have hsame : destinations (b.appendBlock label).2.blocks = destinations b.blocks := by
      simp [destinations, Builder.appendBlock]
    exact (congrArg (List.count value) hsame).trans (h.destinations value)

end Kaleidoscope.Ssa.Builder
