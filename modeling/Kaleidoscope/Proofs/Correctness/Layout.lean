import Kaleidoscope.Proofs.Evaluation
import Kaleidoscope.Proofs.Lowering.Steps
import Mathlib.Data.List.Forall2
import Mathlib.Data.List.Nodup

/-!
# Variables and their slots

Evaluation keeps the variables in cells, generated code keeps them in slots. Both sides agree on
which variables there are, the innermost first; each has a slot of its own, and the slot holds what
the cell holds. Reading, writing and introducing a variable keep the two sides together.
-/

namespace Kaleidoscope

open Ssa (Builder SlotId ValueId)
open Evaluation

/-- Variables with their slots, the innermost first. -/
abbrev Layout := List (String × SlotId)

namespace Layout

variable {layout : Layout} {cells : List Cell} {slots slots' : Array (Option Float)}
  {name : String} {slot : SlotId}

/-- The slots hold what the cells hold. -/
def Holds (slots : Array (Option Float)) : Layout → List Cell → Prop :=
  List.Forall₂ fun v cell =>
    v.1 = cell.name ∧ slots[v.2.index]? = some (some cell.contents)

/-- There are as many variables on both sides. -/
theorem Holds.length_eq (h : Holds slots layout cells) : layout.length = cells.length :=
  List.Forall₂.length_eq h

/-- Other slots do not matter. -/
theorem Holds.of_slots (h : Holds slots layout cells)
    (hslots : ∀ i ∈ layout.map Prod.snd, slots'[i.index]? = slots[i.index]?) :
    Holds slots' layout cells := by
  induction h with
  | nil => exact .nil
  | cons hhead _ ih =>
    rw [List.map_cons, List.forall_mem_cons] at hslots
    exact .cons ⟨hhead.1, hslots.1.trans hhead.2⟩ (ih hslots.2)

/-- The slot that a name stands for holds what the innermost cell of the name holds. -/
theorem Holds.readIn_eq (h : Holds slots layout cells)
    (hslot : Dictionary.lookupIn name layout = some slot) :
    ∃ x, readIn name cells = some x ∧ slots[slot.index]? = some (some x) := by
  induction h with
  | nil => cases hslot
  | @cons v cell _ _ hhead _ ih =>
    obtain ⟨hname, hcontents⟩ := hhead
    rw [Dictionary.lookupIn] at hslot
    rw [readIn, ← hname]
    by_cases heq : v.1 = name
    · rw [if_pos heq, Option.some.injEq] at hslot
      rw [if_pos heq]
      exact ⟨cell.contents, rfl, hslot ▸ hcontents⟩
    · rw [if_neg heq] at hslot
      rw [if_neg heq]
      exact ih hslot

/-- The slot of a variable is among the slots. -/
theorem mem_of_lookupIn (hslot : Dictionary.lookupIn name layout = some slot) :
    slot ∈ layout.map Prod.snd := by
  induction layout with
  | nil => cases hslot
  | cons v outer ih =>
    rw [Dictionary.lookupIn] at hslot
    rw [List.map_cons]
    by_cases heq : v.1 = name
    · rw [if_pos heq, Option.some.injEq] at hslot
      exact hslot ▸ List.mem_cons_self
    · rw [if_neg heq] at hslot
      exact List.mem_cons_of_mem _ (ih hslot)

/-- Writing to the slot that a name stands for is writing to the innermost cell of the name. -/
theorem Holds.writeIn_eq (h : Holds slots layout cells)
    (hdistinct : (layout.map Prod.snd).Nodup)
    (hslot : Dictionary.lookupIn name layout = some slot) {x : Float}
    (hslots : ∀ i : Nat, slots'[i]? = if i = slot.index then some (some x) else slots[i]?) :
    ∃ cells', writeIn name x cells = some cells' ∧ Holds slots' layout cells' := by
  have hother : ∀ i : SlotId, i ≠ slot → slots'[i.index]? = slots[i.index]? := by
    intro i hi
    rw [hslots, if_neg fun heq => hi (congrArg SlotId.mk heq)]
  induction h with
  | nil => cases hslot
  | @cons v cell rest cells hhead hrest ih =>
    obtain ⟨hname, hcontents⟩ := hhead
    rw [List.map_cons, List.nodup_cons] at hdistinct
    rw [Dictionary.lookupIn] at hslot
    rw [writeIn, ← hname]
    by_cases heq : v.1 = name
    · rw [if_pos heq, Option.some.injEq] at hslot
      rw [if_pos heq]
      subst hslot
      refine ⟨_, rfl, .cons ⟨heq, by rw [hslots, if_pos rfl]⟩ (Holds.of_slots hrest ?_)⟩
      exact fun i hi => hother i fun h => hdistinct.1 (h ▸ hi)
    · rw [if_neg heq] at hslot
      rw [if_neg heq]
      obtain ⟨cells', hwrite, hholds⟩ := ih hdistinct.2 hslot
      refine ⟨cell :: cells', by rw [hwrite]; rfl, .cons ⟨hname, ?_⟩ hholds⟩
      rw [hother v.2 fun h => hdistinct.1 (h ▸ mem_of_lookupIn hslot)]
      exact hcontents

/-- The variables are those in scope, and each has a slot of its own. -/
structure Named (layout : Layout) (b : Builder) (scope : Scope) : Prop where
  lookup : ∀ name, scope.lookup name = Dictionary.lookupIn name layout
  distinct : (layout.map Prod.snd).Nodup
  allocated : ∀ slot ∈ layout.map Prod.snd, slot.index < b.slots.length

namespace Named

variable {b c : Builder} {scope scope' : Scope}

/-- More slots do not matter, nor do open scopes. -/
theorem mono (h : layout.Named b scope) (hslots : b.slots <+: c.slots)
    (hscope : ∀ name, scope'.lookup name = scope.lookup name) : layout.Named c scope' :=
  ⟨fun name => (hscope name).trans (h.lookup name), h.distinct,
    fun slot hslot => Nat.lt_of_lt_of_le (h.allocated slot hslot) hslots.length_le⟩

/-- A new slot is none of those of the variables. -/
theorem new_notMem (h : layout.Named b scope) :
    (⟨b.slots.length⟩ : SlotId) ∉ layout.map Prod.snd :=
  fun hmem => Nat.lt_irrefl _ (h.allocated _ hmem)

/-- A new variable gets a new slot. -/
theorem introduce (h : layout.Named b scope) (name : String) (v : ValueId) :
    Named ((name, ⟨b.slots.length⟩) :: layout) (b.introduce name v)
      (scope.bind name ⟨b.slots.length⟩) := by
  have hlength : (b.introduce name v).slots.length = b.slots.length + 1 := List.length_append
  refine ⟨fun other => ?_, ?_, ?_⟩
  · rw [Dictionary.lookupIn, ← h.lookup]
    exact Dictionary.lookup_insert scope.active name other _
  · rw [List.map_cons, List.nodup_cons]
    exact ⟨h.new_notMem, h.distinct⟩
  · rw [List.map_cons, List.forall_mem_cons, hlength]
    exact ⟨Nat.lt_succ_self _, fun slot hslot => Nat.lt_succ_of_lt (h.allocated slot hslot)⟩

/-- The outer variables stay when inner ones are dropped. -/
theorem of_append {inner : Layout} (h : (inner ++ layout).Named b scope)
    (hscope : ∀ name, scope'.lookup name = Dictionary.lookupIn name layout) :
    layout.Named b scope' := by
  have hdistinct := h.distinct
  have hallocated := h.allocated
  rw [List.map_append] at hdistinct hallocated
  exact ⟨hscope, hdistinct.of_append_right,
    fun slot hslot => hallocated slot (List.mem_append_right _ hslot)⟩

end Named

/-- Dropping the inner variables on one side is dropping the inner cells on the other. -/
theorem Holds.drop {inner : Layout} (h : Holds slots (inner ++ layout) cells) :
    Holds slots layout (cells.drop (cells.length - layout.length)) := by
  have hlength := h.length_eq
  rw [List.length_append] at hlength
  have hdrop := List.forall₂_drop inner.length h
  rw [List.drop_left] at hdrop
  rwa [show cells.length - layout.length = inner.length by omega]

end Layout

end Kaleidoscope
