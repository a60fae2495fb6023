import Kaleidoscope.Proofs.Text.Runs
import Kaleidoscope.Ssa.Builder

/-!
# Labels are new

Labels made of one word and different numbers are different. So the search for a free number passes
over every label that is taken, and a new block has a label that no other block has.
-/

namespace Kaleidoscope.Ssa.Builder

variable {label : String} {taken : List String}

/-- A label begins with the word that it is made of. -/
theorem startsWith_numbered (label : String) (n : Nat) : (numbered label n).startsWith label := by
  rw [String.startsWith_string_iff]
  cases n with
  | zero => exact List.prefix_rfl
  | succ n =>
    rw [numbered, String.toList_append]
    exact List.prefix_append _ _

/-- A label with a number is not the word alone. -/
theorem numbered_succ_ne (label : String) (n : Nat) : numbered label (n + 1) ≠ label := by
  intro h
  have happend : label ++ (n + 1).repr = label ++ "" := h.trans (String.append_empty).symm
  exact Nat.repr_ne_empty ((String.append_right_inj label).1 happend)

/-- Different numbers make different labels. -/
theorem numbered_inj {m n : Nat} (h : numbered label m = numbered label n) : m = n := by
  cases m with
  | zero =>
    cases n with
    | zero => rfl
    | succ n => exact (numbered_succ_ne label n h.symm).elim
  | succ m =>
    cases n with
    | zero => exact (numbered_succ_ne label m h).elim
    | succ n =>
      have happend : label ++ (m + 1).repr = label ++ (n + 1).repr := h
      exact eq_of_repr_eq ((String.append_right_inj label).1 happend)

/-- The number that is found is free. -/
theorem numbered_firstFree_notMem (label : String) (taken : List String) (n : Nat) :
    numbered label (firstFree label taken n) ∉ taken ∧ n ≤ firstFree label taken n := by
  induction taken, n using firstFree.induct label with
  | case1 taken n hmem ih =>
    rw [firstFree, if_pos hmem]
    obtain ⟨hnot, hle⟩ := ih
    refine ⟨fun h => hnot ?_, Nat.le_of_succ_le hle⟩
    refine (List.mem_erase_of_ne fun heq => ?_).2 h
    have := numbered_inj heq
    omega
  | case2 taken n hmem =>
    rw [firstFree, if_neg hmem]
    exact ⟨hmem, Nat.le_refl _⟩

/-- The labels with the numbers that are passed over are taken. -/
theorem numbered_mem_of_lt_firstFree {n m : Nat} (hle : n ≤ m) (hlt : m < firstFree label taken n) :
    numbered label m ∈ taken := by
  induction taken, n using firstFree.induct label with
  | case1 taken n hmem ih =>
    rw [firstFree, if_pos hmem] at hlt
    rcases Nat.eq_or_lt_of_le hle with rfl | hle
    · exact hmem
    · exact List.mem_of_mem_erase (ih hle hlt)
  | case2 taken n hmem =>
    rw [firstFree, if_neg hmem] at hlt
    omega

/-- No more numbers are passed over than labels are taken. -/
theorem firstFree_le (label : String) (taken : List String) (n : Nat) :
    firstFree label taken n ≤ n + taken.length := by
  induction taken, n using firstFree.induct label with
  | case1 taken n hmem ih =>
    rw [firstFree, if_pos hmem]
    rw [List.length_erase_of_mem hmem] at ih
    have := List.length_pos_of_mem hmem
    omega
  | case2 taken n hmem =>
    rw [firstFree, if_neg hmem]
    exact Nat.le_add_right ..

/-- No block has the label of a new one. -/
theorem freshLabel_notMem (b : Builder) (label : String) :
    b.freshLabel label ∉ b.blocks.map Block.label := by
  intro hmem
  refine (numbered_firstFree_notMem label _ 0).1 (List.mem_filter.2 ⟨hmem, ?_⟩)
  exact startsWith_numbered _ _

/-- The label of a new block has the least number that makes a label which no block has. The search
for it passes over no more numbers than there are blocks. -/
theorem exists_freshLabel_eq (b : Builder) (label : String) :
    ∃ n ≤ b.blocks.length, b.freshLabel label = numbered label n ∧
      numbered label n ∉ b.blocks.map Block.label ∧
      ∀ m < n, numbered label m ∈ b.blocks.map Block.label := by
  refine ⟨_, ?_, rfl, freshLabel_notMem b label, fun m hlt => ?_⟩
  · refine Nat.le_trans (firstFree_le label _ 0) ?_
    rw [Nat.zero_add]
    exact Nat.le_trans (List.length_filter_le _ _) (Nat.le_of_eq (List.length_map _))
  · exact (List.mem_filter.1 (numbered_mem_of_lt_firstFree (Nat.zero_le m) hlt)).1

end Kaleidoscope.Ssa.Builder
