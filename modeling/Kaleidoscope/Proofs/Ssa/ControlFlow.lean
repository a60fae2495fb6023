import Kaleidoscope.Ssa
import Mathlib.Tactic.Basic

/-!
# Paths from the entry, and dominance

A block dominates another one if every path from the entry to the other one goes through it. While a
function is built, edges are added, and more edges can take dominance away. They do not where they
lead to blocks without a way out, or back to a block that dominates the place where they begin. A
region that is entered at one block only is dominated by that block.
-/

namespace Kaleidoscope.Ssa

/-- A path from the entry to a block, with the blocks that it goes through. The end of the path is
the first of them. -/
inductive Path (edge : BlockId → BlockId → Prop) : List BlockId → BlockId → Prop where
  | entry : Path edge [.entry] .entry
  | step {visited : List BlockId} {i j : BlockId} : Path edge visited i → edge i j →
      Path edge (j :: visited) j

/-- Control can get to the block. -/
def Reachable (edge : BlockId → BlockId → Prop) (j : BlockId) : Prop :=
  ∃ visited, Path edge visited j

/-- Whenever control gets to the block `j`, it has been in the block `i`. -/
def Dominates (edge : BlockId → BlockId → Prop) (i j : BlockId) : Prop :=
  ∀ visited, Path edge visited j → i ∈ visited

variable {edge edge' : BlockId → BlockId → Prop} {visited : List BlockId} {i j k current : BlockId}

/-- A path goes through its end. -/
theorem Path.mem_self (h : Path edge visited j) : j ∈ visited := by
  cases h with
  | entry => exact List.mem_cons_self
  | step => exact List.mem_cons_self

/-- A path goes on along more edges. -/
theorem Path.mono (h : Path edge visited j) (hedges : ∀ i j, edge i j → edge' i j) :
    Path edge' visited j := by
  induction h with
  | entry => exact .entry
  | step _ hedge ih => exact ih.step (hedges _ _ hedge)

/-- A path can be cut off at any block on it. -/
theorem Path.upTo (h : Path edge visited j) (hmem : i ∈ visited) :
    ∃ before, before ⊆ visited ∧ Path edge before i := by
  induction h with
  | entry =>
    obtain rfl := List.mem_singleton.1 hmem
    exact ⟨_, List.Subset.refl _, .entry⟩
  | step hpath hedge ih =>
    rcases List.mem_cons.1 hmem with rfl | hmem
    · exact ⟨_, List.Subset.refl _, hpath.step hedge⟩
    · obtain ⟨before, hsubset, hbefore⟩ := ih hmem
      exact ⟨before, List.subset_cons_of_subset _ hsubset, hbefore⟩

/-- Control begins at the entry. -/
theorem reachable_entry (edge : BlockId → BlockId → Prop) : Reachable edge .entry := ⟨_, .entry⟩

/-- Control gets along an edge. -/
theorem Reachable.step (h : Reachable edge i) (hedge : edge i j) : Reachable edge j := by
  obtain ⟨visited, hpath⟩ := h
  exact ⟨_, hpath.step hedge⟩

/-- More edges take nothing out of reach. -/
theorem Reachable.mono (h : Reachable edge j) (hedges : ∀ i j, edge i j → edge' i j) :
    Reachable edge' j :=
  h.imp fun _ hpath => hpath.mono hedges

/-- A block dominates itself. -/
theorem Dominates.refl (edge : BlockId → BlockId → Prop) (j : BlockId) : Dominates edge j j :=
  fun _ hpath => hpath.mem_self

section Added

variable {targets fresh : List BlockId}

/-- Edges from one block lead to blocks without a way out, or back to blocks on every path. Apart
from those without a way out, no block is on a shorter path than before. -/
theorem Path.of_added (hadded : ∀ i j, edge' i j → edge i j ∨ i = current ∧ j ∈ targets)
    (htargets : ∀ j ∈ targets, j ∈ fresh ∨ Dominates edge j current)
    (hfresh : ∀ j ∈ fresh, j ≠ current ∧ ∀ k, ¬ edge j k) (h : Path edge' visited j) :
    j ∈ fresh ∨ ∃ before, before ⊆ visited ∧ Path edge before j := by
  induction h with
  | entry => exact .inr ⟨_, List.Subset.refl _, .entry⟩
  | @step visited i j _ hedge ih =>
    rcases ih with hi | ⟨before, hsubset, hbefore⟩
    · obtain ⟨hne, hnone⟩ := hfresh i hi
      rcases hadded i j hedge with hedge | ⟨rfl, -⟩
      · exact (hnone j hedge).elim
      · exact (hne rfl).elim
    · rcases hadded i j hedge with hedge | ⟨rfl, hmem⟩
      · exact .inr ⟨_, List.cons_subset_cons j hsubset, hbefore.step hedge⟩
      · refine (htargets j hmem).imp_right fun hdominates => ?_
        obtain ⟨start, hstart, hpath⟩ := hbefore.upTo (hdominates before hbefore)
        exact ⟨start, List.subset_cons_of_subset _ (List.Subset.trans hstart hsubset), hpath⟩

/-- Such edges keep what dominates the other blocks. -/
theorem Dominates.of_added (hadded : ∀ i j, edge' i j → edge i j ∨ i = current ∧ j ∈ targets)
    (htargets : ∀ j ∈ targets, j ∈ fresh ∨ Dominates edge j current)
    (hfresh : ∀ j ∈ fresh, j ≠ current ∧ ∀ k, ¬ edge j k) (h : Dominates edge i j)
    (hj : j ∉ fresh) : Dominates edge' i j := by
  intro visited hpath
  obtain ⟨before, hsubset, hbefore⟩ := (hpath.of_added hadded htargets hfresh).resolve_left hj
  exact hsubset (h before hbefore)

end Added

section Region

variable {n : Nat}

/-- What leads to old blocks is old. -/
theorem Path.of_old (hold : ∀ i j, edge i j → i.index < n ∧ j.index < n)
    (hnew : ∀ i j, edge' i j → edge i j ∨ n ≤ j.index ∧ (i = current ∨ n ≤ i.index))
    (h : Path edge' visited j) (hj : j.index < n) : Path edge visited j := by
  induction h with
  | entry => exact .entry
  | @step visited i j _ hedge ih =>
    rcases hnew i j hedge with hedge | ⟨hle, -⟩
    · exact (ih (hold i j hedge).1).step hedge
    · omega

/-- Control gets to a new block only through the block that new edges begin at. -/
theorem Path.through (hold : ∀ i j, edge i j → i.index < n ∧ j.index < n)
    (hnew : ∀ i j, edge' i j → edge i j ∨ n ≤ j.index ∧ (i = current ∨ n ≤ i.index))
    (hcurrent : current.index < n) (h : Path edge' visited j) (hj : n ≤ j.index) :
    ∃ before, before ⊆ visited ∧ Path edge before current := by
  induction h with
  | entry =>
    have : n ≤ 0 := hj
    omega
  | @step visited i j hpath hedge ih =>
    rcases hnew i j hedge with hedge | ⟨-, rfl | hi⟩
    · have := (hold i j hedge).2
      omega
    · exact ⟨visited, List.subset_cons_self _ _, hpath.of_old hold hnew hcurrent⟩
    · obtain ⟨before, hsubset, hbefore⟩ := ih hi
      exact ⟨before, List.subset_cons_of_subset _ hsubset, hbefore⟩

/-- Old blocks are dominated as before. -/
theorem Dominates.of_old (hold : ∀ i j, edge i j → i.index < n ∧ j.index < n)
    (hnew : ∀ i j, edge' i j → edge i j ∨ n ≤ j.index ∧ (i = current ∨ n ≤ i.index))
    (h : Dominates edge i j) (hj : j.index < n) : Dominates edge' i j :=
  fun visited hpath => h visited (hpath.of_old hold hnew hj)

/-- What dominates the block that new edges begin at dominates the new blocks. -/
theorem Dominates.through (hold : ∀ i j, edge i j → i.index < n ∧ j.index < n)
    (hnew : ∀ i j, edge' i j → edge i j ∨ n ≤ j.index ∧ (i = current ∨ n ≤ i.index))
    (hcurrent : current.index < n) (h : Dominates edge i current)
    (hj : j = current ∨ n ≤ j.index) : Dominates edge' i j := by
  intro visited hpath
  rcases hj with rfl | hj
  · exact h visited (hpath.of_old hold hnew hcurrent)
  · obtain ⟨before, hsubset, hbefore⟩ := hpath.through hold hnew hcurrent hj
    exact hsubset (h before hbefore)

end Region

end Kaleidoscope.Ssa
