import Kaleidoscope.Proofs.Lowering.Soundness

/-!
# Constructs keep bodies sound

What is generated for an expression is a construct: it begins and ends in a block that control can
get to, and everything that was available before is available after it. The parts of a conditional
and of a loop are entered one after the other, each in a block that waits for it. Where the branches
of a conditional meet, there are exactly two ways in, and each branch has computed its value by its
end.
-/

namespace Kaleidoscope.Ssa.Builder

variable {a b : Builder} {waiting W W' : List BlockId}

/-- A construct that begins in the steady builder `a` and ends in the steady builder `b`. -/
structure Builds (W : List BlockId) (a b : Builder) : Prop where
  start : Steady W a
  steady : Steady W b
  region : Region [] a b

namespace Builds

variable {c : Builder}

/-- Nothing has been generated yet. -/
theorem refl (h : Steady W b) : Builds W b b := ⟨h, h, .refl h.isOpen⟩

/-- Constructs follow one another. -/
theorem trans (hab : Builds W a b) (hbc : Builds W b c) : Builds W a c :=
  ⟨hab.start, hbc.steady, hab.region.trans hbc.region⟩

/-- What is available before a construct is available after it. -/
theorem has (h : Builds W a b) {operand : ValueId × Kind} (hoperand : a.Has operand) :
    b.Has operand :=
  h.region.has h.start hoperand

/-- What has been written before a construct has been written after it. -/
theorem hasStored (h : Builds W a b) {slot : SlotId} (hslot : a.HasStored slot) : b.HasStored slot :=
  h.region.hasStored h.start hslot

end Builds

/-- An operation other than a phi is a construct. -/
theorem Steady.assign (h : Steady W b) {operation : Operation}
    (hoperands : ∀ operand ∈ operation.operands, b.Has operand)
    (hphi : ∀ incoming, operation ≠ .phi incoming)
    (hload : ∀ slot, operation = .load slot → b.HasStored slot ∧ slot.index < b.slots.length) :
    Builds W b (b.assign operation).2 ∧
      (b.assign operation).2.Has ((b.assign operation).1, operation.kind) := by
  have hadmits : b.Admits (.assign ⟨b.valueCount⟩ operation) := by
    refine ⟨hoperands, fun target incoming heq => ?_, fun target slot heq => ?_, fun slot hslot => ?_⟩
    · cases heq
      exact (hphi incoming rfl).elim
    · cases heq
      exact (hload slot rfl).1
    · cases operation with
      | load slot' =>
        cases hslot
        exact (hload slot rfl).2
      | _ => cases hslot
  obtain ⟨hsteady, hhas⟩ :=
    @Steady.appendValue _ _ h (.assign · operation) operation.kind hadmits fun _ => rfl
  refine ⟨⟨h, hsteady, (Region.refl h.isOpen).appendValue fun _ target incoming heq => ?_⟩, hhas⟩
  cases heq
  exact hphi incoming rfl

/-- A constant is a construct. -/
theorem Steady.constant (h : Steady W b) (value : Float) :
    Builds W b (b.assign (.constant value)).2 ∧
      (b.assign (.constant value)).2.Has ((b.assign (.constant value)).1, .number) :=
  @Steady.assign _ _ h (.constant value) (List.forall_mem_nil _)
    (fun _ heq => Operation.noConfusion heq) (fun _ heq => Operation.noConfusion heq)

/-- A truth value as a number is a construct. -/
theorem Steady.widen (h : Steady W b) {value : ValueId} (hvalue : b.Has (value, .truth)) :
    Builds W b (b.assign (.widen value)).2 ∧
      (b.assign (.widen value)).2.Has ((b.assign (.widen value)).1, .number) :=
  @Steady.assign _ _ h (.widen value) (List.forall_mem_singleton.2 hvalue)
    (fun _ heq => Operation.noConfusion heq) (fun _ heq => Operation.noConfusion heq)

/-- What is computed from two numbers is a construct. -/
theorem Steady.combine (h : Steady W b) {operation : Operation} {x y : ValueId}
    (hoperands : operation.operands = [(x, .number), (y, .number)]) (hx : b.Has (x, .number))
    (hy : b.Has (y, .number)) :
    Builds W b (b.assign operation).2 ∧
      (b.assign operation).2.Has ((b.assign operation).1, operation.kind) := by
  refine h.assign (fun operand hmem => ?_) (fun incoming heq => ?_) (fun slot heq => ?_)
  · rw [hoperands] at hmem
    rcases List.mem_cons.1 hmem with rfl | hmem
    · exact hx
    · obtain rfl := List.mem_singleton.1 hmem
      exact hy
  · subst heq
    cases hoperands
  · subst heq
    cases hoperands

/-- A call is a construct. -/
theorem Steady.call (h : Steady W b) (callee : String) {arguments : List ValueId}
    (harguments : ∀ value ∈ arguments, b.Has (value, .number)) :
    Builds W b (b.call callee arguments).2 ∧
      (b.call callee arguments).2.Has ((b.call callee arguments).1, .number) := by
  have hadmits : b.Admits (.call ⟨b.valueCount⟩ callee arguments) := by
    refine ⟨fun operand hmem => ?_, nofun, nofun, nofun⟩
    obtain ⟨value, hvalue, rfl⟩ := List.mem_map.1 hmem
    exact harguments value hvalue
  obtain ⟨hsteady, hhas⟩ :=
    @Steady.appendValue _ _ h (.call · callee arguments) .number hadmits fun _ => rfl
  exact ⟨⟨h, hsteady, (Region.refl h.isOpen).appendValue nofun⟩, hhas⟩

/-- Storing a number is a construct. -/
theorem Steady.store (h : Steady W b) {slot : SlotId} {value : ValueId}
    (hvalue : b.Has (value, .number)) (hslot : slot.index < b.slots.length) :
    Builds W b (b.store slot value) ∧ (b.store slot value).HasStored slot := by
  have hadmits : b.Admits (.store slot value) := by
    refine ⟨fun operand hmem => ?_, nofun, nofun, fun slot' hmem => ?_⟩
    · obtain rfl := List.mem_singleton.1 hmem
      exact hvalue
    · cases hmem
      exact hslot
  refine ⟨⟨h, h.append hadmits rfl, (Region.refl h.isOpen).append nofun⟩,
    b.current, endOf b.blocks b.current, .store slot value, ?_, ⟨value, rfl⟩, .inl ⟨rfl, ?_⟩⟩
  · exact (instructionAt?_append h.isOpen _ _ _).trans (if_pos ⟨rfl, rfl⟩)
  · have hend : endOf (b.append (.store slot value)).blocks b.current =
        endOf b.blocks b.current + 1 := (endOf_append h.isOpen _ _).trans (if_pos rfl)
    exact Nat.lt_of_lt_of_eq (Nat.lt_succ_self _) hend.symm

/-- A new variable is a construct. -/
theorem Steady.introduce (h : Steady W b) (name : String) {value : ValueId}
    (hvalue : b.Has (value, .number)) :
    Builds W b (b.introduce name value) ∧
      (b.introduce name value).HasStored ⟨b.slots.length⟩ := by
  have hallocate : Builds W b (b.allocate name).2 :=
    ⟨h, h.allocate name, (Region.refl h.isOpen).allocate name⟩
  have hslot : b.slots.length < (b.allocate name).2.slots.length := by
    change b.slots.length < (b.slots ++ [name]).length
    rw [List.length_append]
    exact Nat.lt_succ_self _
  obtain ⟨hstore, hstored⟩ :=
    @Steady.store _ _ (h.allocate name) ⟨b.slots.length⟩ _ (hallocate.has hvalue) hslot
  exact ⟨hallocate.trans hstore, hstored⟩

/-- A condition is a construct that computes a truth value. -/
theorem Steady.test (h : Steady W b) {value : ValueId} (hvalue : b.Has (value, .number)) :
    Builds W b (b.test value).2 ∧ (b.test value).2.Has ((b.test value).1, .truth) := by
  obtain ⟨hzero, hhas⟩ := h.constant 0
  obtain ⟨hcompare, htruth⟩ := @Steady.combine _ _ hzero.steady
    (.compare .orderedAndDistinct value (b.assign (.constant 0)).1) _ _ rfl (hzero.has hvalue) hhas
  exact ⟨hzero.trans hcompare, htruth⟩

/-- Reading a variable that has been written is a construct. -/
theorem Steady.load (h : Steady W b) {slot : SlotId} (hstored : b.HasStored slot)
    (hslot : slot.index < b.slots.length) :
    Builds W b (b.assign (.load slot)).2 ∧
      (b.assign (.load slot)).2.Has ((b.assign (.load slot)).1, .number) := by
  refine @Steady.assign _ _ h (.load slot) (List.forall_mem_nil _)
    (fun _ heq => Operation.noConfusion heq) fun slot' heq => ?_
  cases heq
  exact ⟨hstored, hslot⟩

/-- Increasing a variable is a construct. -/
theorem Steady.increase (h : Steady W b) {slot : SlotId} {increment : ValueId}
    (hstored : b.HasStored slot) (hslot : slot.index < b.slots.length)
    (hincrement : b.Has (increment, .number)) : Builds W b (b.increase slot increment) := by
  obtain ⟨hload, hcurrent⟩ := h.load hstored hslot
  obtain ⟨hadd, hnext⟩ := @Steady.combine _ _ hload.steady
    (.arithmetic .add (b.assign (.load slot)).1 increment) _ _ rfl hcurrent (hload.has hincrement)
  obtain ⟨hstore, -⟩ := hadd.steady.store hnext hslot
  exact (hload.trans hadd).trans hstore

section Conditional

variable {tested left right : Builder} {holds x y : ValueId} {n : Nat}

/-- The first branch is entered. -/
abbrev enterThen (b : Builder) (holds : ValueId) : Builder :=
  (b.addBranches.terminate (.branchIf holds ⟨b.blocks.length⟩ ⟨b.blocks.length + 1⟩)).moveTo
    ⟨b.blocks.length⟩

/-- The second branch is entered, the blocks of the conditional being those from `n` on. -/
abbrev enterElse (left : Builder) (n : Nat) : Builder :=
  (left.terminate (.branch ⟨n + 2⟩)).moveTo ⟨n + 1⟩

/-- The place where the branches meet is entered. -/
abbrev enterJoin (right : Builder) (n : Nat) : Builder :=
  (right.terminate (.branch ⟨n + 2⟩)).moveTo ⟨n + 2⟩

/-- The three blocks of a conditional wait. -/
theorem Steady.addBranches (h : Steady W b) :
    Steady (⟨b.blocks.length + 2⟩ :: ⟨b.blocks.length + 1⟩ :: ⟨b.blocks.length⟩ :: W)
      b.addBranches := by
  have := ((h.appendBlock "then").appendBlock "else").appendBlock "ifcont"
  simpa only [Builder.appendBlock, List.length_append, List.length_singleton,
    Builder.addBranches] using this

/-- The three blocks of a conditional wait to be entered. -/
theorem Region.addBranches (hopen : b.Open) :
    Region [⟨b.blocks.length⟩, ⟨b.blocks.length + 1⟩, ⟨b.blocks.length + 2⟩] b b.addBranches := by
  have := (((Region.refl hopen).appendBlock "then").appendBlock "else").appendBlock "ifcont"
  simpa only [Builder.appendBlock, List.length_append, List.length_singleton, List.nil_append,
    List.cons_append, Builder.addBranches] using this

/-- In the first branch the second one and the end still wait. -/
theorem Region.enter_then (hopen : tested.Open) (holds : ValueId) :
    Region [⟨tested.blocks.length + 1⟩, ⟨tested.blocks.length + 2⟩] tested
      (tested.enterThen holds) :=
  (Region.addBranches hopen).enter (by simp) (by simp [Terminator.targets])

/-- The first branch begins steadily. -/
theorem Steady.enter_then (h : Steady W tested) (hholds : tested.Has (holds, .truth)) :
    Steady (⟨tested.blocks.length + 2⟩ :: W) (tested.enterThen holds) := by
  have hregion := Region.addBranches h.isOpen
  refine h.addBranches.enter hregion h.isOpen (fun j hj => .inl ?_) (fun operand hmem => ?_)
    (fun j hj => ?_) (fun j hj => ?_) fun hmem => ?_
  · simp only [Terminator.targets, List.mem_cons, List.not_mem_nil, or_false] at hj ⊢
    exact hj.imp_right .inl
  · obtain rfl := List.mem_singleton.1 hmem
    exact hregion.has h hholds
  · simp only [Terminator.targets, List.mem_cons, List.not_mem_nil, or_false] at hj ⊢
    tauto
  · simp only [List.mem_cons] at hj ⊢
    tauto
  · rcases List.mem_cons.1 hmem with heq | hmem
    · simp at heq
    · exact Nat.lt_irrefl _ (h.waiting _ hmem)

/-- In the second branch only the end waits. -/
theorem Region.enter_else (hopen : tested.Open) (hleft : Region [] (tested.enterThen holds) left) :
    Region [⟨tested.blocks.length + 2⟩] tested (left.enterElse tested.blocks.length) :=
  ((Region.enter_then hopen holds).trans hleft).enter (by simp) (by simp [Terminator.targets])

/-- The second branch begins steadily. -/
theorem Steady.enter_else (h : Steady W tested)
    (hleft : Builds (⟨tested.blocks.length + 2⟩ :: W) (tested.enterThen holds) left) :
    Steady W (left.enterElse tested.blocks.length) := by
  refine hleft.steady.enter ((Region.enter_then h.isOpen holds).trans hleft.region) h.isOpen
    (fun j hj => .inl ?_) nofun (fun j hj => ?_) (List.subset_cons_self _ _) fun hmem => ?_
  · obtain rfl := List.mem_singleton.1 hj
    exact List.mem_cons_of_mem _ List.mem_cons_self
  · rcases List.mem_cons.1 hj with rfl | hj
    · exact .inr (List.mem_singleton_self _)
    · exact .inl hj
  · exact Nat.not_succ_lt_self (h.waiting _ hmem)

/-- Where the branches meet nothing waits. -/
theorem Region.enter_join (hopen : tested.Open) (hleft : Region [] (tested.enterThen holds) left)
    (hright : Region [] (left.enterElse tested.blocks.length) right) :
    Region [] tested (right.enterJoin tested.blocks.length) :=
  ((Region.enter_else hopen hleft).trans hright).enter (by simp) (by simp [Terminator.targets])

/-- The branches meet steadily. -/
theorem Steady.enter_join (h : Steady W tested)
    (hleft : Builds (⟨tested.blocks.length + 2⟩ :: W) (tested.enterThen holds) left)
    (hright : Builds W (left.enterElse tested.blocks.length) right) :
    Steady W (right.enterJoin tested.blocks.length) := by
  refine hright.steady.enter ((Region.enter_else h.isOpen hleft.region).trans hright.region) h.isOpen
    (fun j hj => .inl hj) nofun (fun j hj => .inl hj) (List.Subset.refl _) fun hmem => ?_
  have : tested.blocks.length + 2 < tested.blocks.length := h.waiting _ hmem
  omega

/-- Empty blocks have no edges. -/
theorem edge_addBranches (b : Builder) : Edge b.addBranches.blocks = Edge b.blocks :=
  (edge_appendBlock ..).trans ((edge_appendBlock ..).trans (edge_appendBlock ..))

/-- A conditional adds three blocks. -/
theorem length_enterThen (tested : Builder) (holds : ValueId) :
    (tested.enterThen holds).blocks.length = tested.blocks.length + 3 := by
  rw [enterThen, moveTo, length_terminate]
  simp [Builder.addBranches, Builder.appendBlock]

/-- Control gets to where the branches meet from the ends of the branches and from nowhere else. -/
theorem edge_join_iff (h : Steady W tested) (hleft : Region [] (tested.enterThen holds) left)
    (hright : Region [] (left.enterElse tested.blocks.length) right) (i : BlockId) :
    Edge (right.enterJoin tested.blocks.length).blocks i ⟨tested.blocks.length + 2⟩ ↔
      i = left.current ∨ i = right.current := by
  have hlength : tested.blocks.length + 2 < (tested.enterThen holds).blocks.length := by
    rw [length_enterThen]
    omega
  have hlength' : tested.blocks.length + 2 <
      (left.enterElse tested.blocks.length).blocks.length := by
    rw [enterElse, moveTo, length_terminate]
    exact Nat.lt_of_lt_of_le hlength hleft.grows.length_le
  have hthen : ¬ Edge (tested.enterThen holds).blocks i ⟨tested.blocks.length + 2⟩ := by
    intro hedge
    rcases (edge_terminate (Region.addBranches h.isOpen).isOpen _).1 hedge with hedge | ⟨-, hmem⟩
    · rw [edge_addBranches] at hedge
      have : tested.blocks.length + 2 < tested.blocks.length := h.lt_length hedge
      omega
    · simp [Terminator.targets] at hmem
  have helse : Edge (left.enterElse tested.blocks.length).blocks i ⟨tested.blocks.length + 2⟩ ↔
      i = left.current := by
    refine (edge_terminate hleft.isOpen _).trans ?_
    rw [hleft.edge_iff hlength]
    simp [hthen, Terminator.targets]
  refine (edge_terminate hright.isOpen _).trans ?_
  rw [hright.edge_iff hlength', helse]
  simp [Terminator.targets]

/-- The branches end in different blocks. -/
theorem current_ne_current (hleft : Region [] (tested.enterThen holds) left)
    (hright : Region [] (left.enterElse tested.blocks.length) right) :
    left.current ≠ right.current := by
  intro heq
  have hlt := hleft.isOpen.lt_length
  have hlength := length_enterThen tested holds
  have hle := hleft.grows.length_le
  have hright : right.current.index = tested.blocks.length + 1 ∨
      left.blocks.length ≤ right.current.index := by
    rw [← length_terminate left (.branch ⟨tested.blocks.length + 2⟩)]
    exact hright.current.imp_left (congrArg BlockId.index)
  have hleft : left.current.index = tested.blocks.length ∨
      (tested.enterThen holds).blocks.length ≤ left.current.index :=
    hleft.current.imp_left (congrArg BlockId.index)
  rw [heq] at hlt hleft
  omega

/-- The value of the first branch is available at its end. -/
theorem available_left (h : Steady W tested)
    (hleft : Builds (⟨tested.blocks.length + 2⟩ :: W) (tested.enterThen holds) left)
    (hright : Builds W (left.enterElse tested.blocks.length) right)
    (hx : left.Has (x, .number)) :
    Available right.parameters.length (right.enterJoin tested.blocks.length).blocks (x, .number)
      left.current (endOf (right.enterJoin tested.blocks.length).blocks left.current) := by
  have hregion := (Region.enter_then h.isOpen holds).trans hleft.region
  have hregion' := (Region.enter_else h.isOpen hleft.region).trans hright.region
  have hgrows : (left.enterElse tested.blocks.length).Grows right := hright.region.grows
  have hparameters : right.parameters = left.parameters := hgrows.parameters
  have hlt : left.current.index < (left.enterElse tested.blocks.length).blocks.length := by
    rw [enterElse, moveTo, length_terminate]
    exact hleft.steady.isOpen.lt_length
  have hkeeps : Keeps left.blocks (right.enterJoin tested.blocks.length).blocks :=
    ((grows_terminate hleft.steady.isOpen (.branch ⟨tested.blocks.length + 2⟩)).trans
      ((grows_moveTo _ _).trans (hgrows.trans
        (grows_terminate hright.steady.isOpen (.branch ⟨tested.blocks.length + 2⟩))))).keeps
  refine hparameters ▸ hx.mono hkeeps (fun i hi => ?_) (hkeeps.endOf _)
  have hthen : Dominates (Edge (left.enterElse tested.blocks.length).blocks) i left.current :=
    hregion.dominates_terminate (.branch _) (fun j hj => .inl (List.mem_cons_of_mem _ hj)) hi
      hregion.current_notMem
  have helse : Dominates (Edge right.blocks) i left.current :=
    hright.region.dominates_old hright.start.lt_length hthen hlt
  refine hregion'.dominates_terminate (.branch _) (fun j hj => .inl hj) helse fun hmem => ?_
  exact hregion.current_notMem (List.mem_cons_of_mem _ hmem)

/-- The value of the second branch is available at its end. -/
theorem available_right (h : Steady W tested)
    (hleft : Region [] (tested.enterThen holds) left)
    (hright : Builds W (left.enterElse tested.blocks.length) right)
    (hy : right.Has (y, .number)) :
    Available right.parameters.length (right.enterJoin tested.blocks.length).blocks (y, .number)
      right.current (endOf (right.enterJoin tested.blocks.length).blocks right.current) := by
  have hregion := (Region.enter_else h.isOpen hleft).trans hright.region
  have hkeeps : Keeps right.blocks (right.enterJoin tested.blocks.length).blocks :=
    (grows_terminate hright.steady.isOpen (.branch ⟨tested.blocks.length + 2⟩)).keeps
  refine hy.mono hkeeps (fun i hi => ?_) (hkeeps.endOf _)
  exact hregion.dominates_terminate (.branch _) (fun j hj => .inl hj) hi hregion.current_notMem

/-- A conditional is a construct. Its value is that of the branch that has been taken. -/
theorem Steady.conditional (h : Steady W tested)
    (hleft : Builds (⟨tested.blocks.length + 2⟩ :: W) (tested.enterThen holds) left)
    (hx : left.Has (x, .number)) (hright : Builds W (left.enterElse tested.blocks.length) right)
    (hy : right.Has (y, .number)) :
    Builds W tested ((right.enterJoin tested.blocks.length).assign
        (.phi [(x, left.current), (y, right.current)])).2 ∧
      ((right.enterJoin tested.blocks.length).assign
        (.phi [(x, left.current), (y, right.current)])).2.Has
        (((right.enterJoin tested.blocks.length).assign
          (.phi [(x, left.current), (y, right.current)])).1, .number) := by
  have hjoins : Joins right.parameters.length (right.enterJoin tested.blocks.length).blocks
      [(x, left.current), (y, right.current)] ⟨tested.blocks.length + 2⟩ := by
    refine ⟨?_, fun i => ?_, fun value block hmem => ?_⟩
    · simp [current_ne_current hleft.region hright.region]
    · rw [edge_join_iff h hleft.region hright.region]
      simp
    · rcases List.mem_cons.1 hmem with heq | hmem
      · cases heq
        exact available_left h hleft hright hx
      · cases List.mem_singleton.1 hmem
        exact available_right h hleft.region hright hy
  have hadmits : (right.enterJoin tested.blocks.length).Admits (.assign
      ⟨right.valueCount⟩ (.phi [(x, left.current), (y, right.current)])) := by
    refine ⟨nofun, fun target incoming heq => ?_, nofun, nofun⟩
    cases heq
    exact hjoins
  have hregion := Region.enter_join h.isOpen hleft.region hright.region
  obtain ⟨hsteady, hhas⟩ := @Steady.appendValue _ _ (h.enter_join hleft hright)
    (.assign · (.phi [(x, left.current), (y, right.current)])) .number hadmits fun _ => rfl
  refine ⟨⟨h, hsteady, hregion.of_append (hregion.toAdvances.assign _) rfl (.inr ?_)⟩, hhas⟩
  exact Nat.le_add_right _ 2

end Conditional

section Loop

variable {started checked : Builder} {holds : ValueId} {n : Nat}

/-- The body of a loop is entered. -/
abbrev enterLoop (b : Builder) : Builder :=
  (b.addLoop.terminate (.branch ⟨b.blocks.length⟩)).moveTo ⟨b.blocks.length⟩

/-- A round of the loop ends, and what follows the loop is entered, the blocks of the loop being
those from `n` on. -/
abbrev leaveLoop (checked : Builder) (holds : ValueId) (n : Nat) : Builder :=
  (checked.terminate (.branchIf holds ⟨n⟩ ⟨n + 1⟩)).moveTo ⟨n + 1⟩

/-- The two blocks of a loop wait. -/
theorem Steady.addLoop (h : Steady W b) :
    Steady (⟨b.blocks.length + 1⟩ :: ⟨b.blocks.length⟩ :: W) b.addLoop := by
  have := (h.appendBlock "loop").appendBlock "afterloop"
  simpa only [Builder.appendBlock, List.length_append, List.length_singleton,
    Builder.addLoop] using this

/-- The two blocks of a loop wait to be entered. -/
theorem Region.addLoop (hopen : b.Open) :
    Region [⟨b.blocks.length⟩, ⟨b.blocks.length + 1⟩] b b.addLoop := by
  have := ((Region.refl hopen).appendBlock "loop").appendBlock "afterloop"
  simpa only [Builder.appendBlock, List.length_append, List.length_singleton, List.nil_append,
    List.cons_append, Builder.addLoop] using this

/-- In the body of a loop what follows it waits. -/
theorem Region.enter_loop (hopen : started.Open) :
    Region [⟨started.blocks.length + 1⟩] started started.enterLoop :=
  (Region.addLoop hopen).enter (by simp) (by simp [Terminator.targets])

/-- The body of a loop begins steadily. -/
theorem Steady.enter_loop (h : Steady W started) :
    Steady (⟨started.blocks.length + 1⟩ :: W) started.enterLoop := by
  refine h.addLoop.enter (Region.addLoop h.isOpen) h.isOpen (fun j hj => .inl ?_) nofun
    (fun j hj => ?_) (fun j hj => ?_) fun hmem => ?_
  · obtain rfl := List.mem_singleton.1 hj
    exact List.mem_cons_self
  · simp only [Terminator.targets, List.mem_cons, List.not_mem_nil, or_false] at hj ⊢
    tauto
  · simp only [List.mem_cons] at hj ⊢
    tauto
  · rcases List.mem_cons.1 hmem with heq | hmem
    · simp at heq
    · exact Nat.lt_irrefl _ (h.waiting _ hmem)

/-- A loop is a construct. A round leads back to the block that it began in, or out of the loop. -/
theorem Steady.loop (h : Steady W started)
    (hround : Builds (⟨started.blocks.length + 1⟩ :: W) started.enterLoop checked)
    (hholds : checked.Has (holds, .truth)) :
    Builds W started (checked.leaveLoop holds started.blocks.length) := by
  have hregion := (Region.enter_loop h.isOpen).trans hround.region
  have hback : checked.LeadsHere ⟨started.blocks.length⟩ := by
    refine hround.region.leadsHere hround.start ((Region.addLoop h.isOpen).fresh_enter _) ?_
    have := h.isOpen.lt_length
    intro heq
    have : started.blocks.length = 0 := congrArg BlockId.index heq
    omega
  refine ⟨h, ?_, hregion.enter (by simp) (by simp [Terminator.targets])⟩
  refine hround.steady.enter hregion h.isOpen (fun j hj => ?_) (fun operand hmem => ?_)
    (fun j hj => ?_) (List.subset_cons_self _ _) fun hmem => ?_
  · rcases List.mem_cons.1 hj with rfl | hj
    · exact .inr hback
    · exact .inl hj
  · obtain rfl := List.mem_singleton.1 hmem
    exact hholds
  · rcases List.mem_cons.1 hj with rfl | hj
    · exact .inr (List.mem_cons_of_mem _ (List.mem_singleton_self _))
    · exact .inl hj
  · exact Nat.not_succ_lt_self (h.waiting _ hmem)

end Loop

end Kaleidoscope.Ssa.Builder
