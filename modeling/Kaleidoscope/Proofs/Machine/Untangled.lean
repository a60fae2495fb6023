import Kaleidoscope.Proofs.Machine.Reordering

/-!
# Untangled phis

Where no phi chooses a value that a phi listed before it computes, what the phis of a block lead to
does not depend on their order, as long as the other order is of this kind, too. So a call comes to
the same if this holds whenever a block is begun during the call. Phis that need each other's values
can be told apart by their order: a loop that exchanges two numbers loses one of them.
-/

namespace Kaleidoscope.Machine

open Ssa (Block BlockId Phi Program ValueId leadingPhis behindPhis)

variable {m : Machine} {p p' : Program} {f f' : Frame} {callers callers' : List Suspended}
  {phis phis' : List Phi}

/-- The phis of the block can take effect together: each has a register of its own, what it chooses
is defined, and no phi listed before it computes that. -/
structure Frame.Clear (f : Frame) : Prop where
  offers : f.Offers (leadingPhis f.block.instructions)
  untangled : f.Untangled (leadingPhis f.block.instructions)

instance (f : Frame) : Decidable f.Clear :=
  decidable_of_iff
    (((leadingPhis f.block.instructions).map Phi.target).Nodup ∧
      (∀ φ ∈ leadingPhis f.block.instructions, φ.target.index < f.registers.size) ∧
      (∀ φ ∈ leadingPhis f.block.instructions, ∀ v ∈ φ.chosen? f.previous,
        (f.registers[v.index]?.join).isSome) ∧
      (leadingPhis f.block.instructions).Pairwise fun earlier later =>
        later.chosen? f.previous ≠ some earlier.target)
    (by
      simp only [Option.isSome_iff_exists, Option.join_eq_some_iff]
      constructor
      · rintro ⟨hdistinct, hrange, hdefined, huntangled⟩
        exact ⟨⟨hdistinct, hrange, hdefined⟩, huntangled⟩
      · rintro ⟨⟨hdistinct, hrange, hdefined⟩, huntangled⟩
        exact ⟨hdistinct, hrange, hdefined, huntangled⟩)

/-- From the state on, whenever a block is begun its phis can take effect together. -/
def RunsClear (m : Machine) (p : Program) (state : State) : Prop :=
  ∀ steps later, m.stateAfter p steps state = some later →
    later.frame.pending = later.frame.block.instructions → later.frame.Clear

/-- A run that is clear is clear behind its first step. -/
theorem RunsClear.step {state next : State} {native : Option NativeCall} (h : RunsClear m p state)
    (hstep : m.step p state = ⟨.running next, native⟩) : RunsClear m p next := by
  intro steps later hlater
  refine h (steps + 1) later ?_
  rw [stateAfter, hstep]
  exact hlater

/-- What is behind so many steps is behind more steps than that. -/
theorem stateAfter_add {steps : Nat} {state next : State}
    (h : m.stateAfter p steps state = some next) (more : Nat) :
    m.stateAfter p (steps + more) state = m.stateAfter p more next := by
  induction steps generalizing state with
  | zero =>
    obtain rfl := Option.some.inj h
    rw [Nat.zero_add]
  | succ steps ih =>
    rw [stateAfter] at h
    rw [Nat.add_right_comm, stateAfter]
    split at h
    · exact ih h
    · cases h

/-- A run that is clear is clear behind any number of steps. -/
theorem RunsClear.after {state next : State} {steps : Nat} (h : RunsClear m p state)
    (hafter : m.stateAfter p steps state = some next) : RunsClear m p next := by
  intro more later hlater
  refine h (steps + more) later ?_
  rw [stateAfter_add hafter]
  exact hlater

/-- A run that has come to its end has no state afterwards. -/
theorem stateAfter_eq_none_of_le {steps more : Nat} {state : State}
    (h : m.stateAfter p steps state = none) (hle : steps ≤ more) :
    m.stateAfter p more state = none := by
  induction steps generalizing state more with
  | zero => cases h
  | succ steps ih =>
    obtain ⟨more, rfl⟩ := Nat.exists_eq_add_of_le' (Nat.le_trans (Nat.succ_pos steps) hle)
    rw [stateAfter] at h ⊢
    split at h
    · exact ih h (Nat.le_of_succ_le_succ hle)
    · rfl

/-- A run that comes to its end is clear if it is until then. -/
theorem runsClear_of_end {state : State} (steps : Nat) (hend : m.stateAfter p steps state = none)
    (h : ∀ k < steps, ∀ later ∈ m.stateAfter p k state,
      later.frame.pending = later.frame.block.instructions → later.frame.Clear) :
    RunsClear m p state := by
  intro k later hlater
  rcases Nat.lt_or_ge k steps with hlt | hge
  · exact h k hlt later hlater
  · rw [stateAfter_eq_none_of_le hend hge] at hlater
    cases hlater

/-- The phis of a block lead from the beginning of the block in both programs to aligned states, or
they end both runs. -/
theorem begins_cases (h : f.Begins f') (hclear : f.Clear) (hclear' : f'.Clear) :
    (∃ g g' steps, g.Aligned g' ∧ Silently m p steps ⟨f, callers⟩ ⟨g, callers⟩ ∧
      Silently m p' steps ⟨f', callers'⟩ ⟨g', callers'⟩) ∨
    ∃ result, ∀ natives,
      (∃ fuel, m.runFrom p fuel ⟨f, callers⟩ natives = some ⟨result, natives.reverse⟩) ∧
      ∃ fuel, m.runFrom p' fuel ⟨f', callers'⟩ natives = some ⟨result, natives.reverse⟩ := by
  cases h with
  | @intro body block hbody hblock hstart =>
    have hpending := Ssa.map_leadingPhis_append f.block.instructions
    have hpending' := Ssa.map_leadingPhis_append block.instructions
    have hperm := hblock.phis
    by_cases hchosen : ∀ φ ∈ leadingPhis f.block.instructions, (φ.chosen? f.previous).isSome
    · left
      obtain ⟨g, hsilently, hrest, hsettled⟩ :=
        exists_settled m p callers (hstart.trans hpending.symm) hclear.offers hchosen
      obtain ⟨g', hsilently', hrest', hsettled'⟩ :=
        exists_settled m p' callers' hpending'.symm hclear'.offers
          fun φ hφ => hchosen φ (hperm.mem_iff.1 hφ)
      have htogether := hsettled.together hclear.untangled
      have htogether' := hsettled'.together hclear'.untangled
      have hregisters := htogether.registers_eq htogether' hperm rfl rfl hchosen
      refine ⟨g, g', _, ?_, hsilently, hperm.length_eq ▸ hsilently'⟩
      rw [htogether.elsewhere, htogether'.elsewhere, hrest, hrest', hregisters, hblock.behind]
      exact .intro hbody hblock
    · right
      have hmissing : ∃ φ ∈ leadingPhis f.block.instructions, φ.chosen? f.previous = none := by
        simpa using hchosen
      have hmissing' : ∃ φ ∈ leadingPhis block.instructions, φ.chosen? f.previous = none :=
        hmissing.imp fun φ hφ => ⟨hperm.mem_iff.2 hφ.1, hφ.2⟩
      refine ⟨f.fault (.missingAlternative f.block.label), fun natives => ⟨?_, ?_⟩⟩
      · exact exists_run_of_missing m p callers (hstart.trans hpending.symm) hclear.offers hmissing natives
      · rw [← hblock.label]
        exact exists_run_of_missing m p' callers' hpending'.symm hclear'.offers hmissing' natives

/-- What a clear run comes to within so many steps, a clear run from the same point comes to as
well. -/
def FollowedWithin (m : Machine) (p p' : Program) (fuel : Nat) : Prop :=
  ∀ {state state' : State} {natives : List NativeCall} {run : Run},
    (Status.running state).Alike (.running state') → RunsClear m p state → RunsClear m p' state' →
    m.runFrom p fuel state natives = some run → ∃ fuel', m.runFrom p' fuel' state' natives = some run

/-- From aligned states one step is taken in both runs. -/
theorem FollowedWithin.aligned {fuel : Nat} (hfuel : FollowedWithin m p p' fuel) (hp : Reordered p p')
    (h : f.Aligned f') (hcallers : List.Forall₂ Suspended.Aligned callers callers')
    (hclear : RunsClear m p ⟨f, callers⟩) (hclear' : RunsClear m p' ⟨f', callers'⟩)
    {natives : List NativeCall} {run : Run}
    (hrun : m.runFrom p (fuel + 1) ⟨f, callers⟩ natives = some run) :
    ∃ fuel', m.runFrom p' fuel' ⟨f', callers'⟩ natives = some run := by
  obtain ⟨hstatus, hnative⟩ := step_alike (m := m) hp h hcallers
  rcases hstep : m.step p ⟨f, callers⟩ with ⟨status, native⟩
  rcases hstep' : m.step p' ⟨f', callers'⟩ with ⟨status', native'⟩
  rw [hstep, hstep'] at hstatus hnative
  obtain rfl : native' = native := hnative
  cases status with
  | finished result =>
    obtain rfl : status' = .finished result := by
      cases hstatus
      rfl
    rw [runFrom_succ_of_finished hstep] at hrun
    exact ⟨1, (runFrom_succ_of_finished hstep' 0 natives).trans hrun⟩
  | running next =>
    obtain ⟨next', rfl⟩ : ∃ next', status' = .running next' := by
      cases hstatus with
      | aligned => exact ⟨_, rfl⟩
      | begins => exact ⟨_, rfl⟩
    rw [runFrom_succ_of_running hstep] at hrun
    obtain ⟨fuel', hrun'⟩ := hfuel hstatus (hclear.step hstep) (hclear'.step hstep') hrun
    exact ⟨fuel' + 1, (runFrom_succ_of_running hstep' fuel' natives).trans hrun'⟩

/-- What one of two clear runs comes to, the other one comes to as well. -/
theorem followedWithin (hp : Reordered p p') (fuel : Nat) : FollowedWithin m p p' fuel := by
  induction fuel with
  | zero =>
    intro state state' natives run _ _ _ hrun
    cases hrun
  | succ fuel ih =>
    intro state state' natives run h hclear hclear' hrun
    cases h with
    | aligned hf hcallers => exact ih.aligned hp hf hcallers hclear hclear' hrun
    | @begins f f' callers callers' hf hcallers =>
      have hstart : f.pending = f.block.instructions ∧ f'.pending = f'.block.instructions := by
        cases hf with
        | intro _ _ hstart => exact ⟨hstart, rfl⟩
      rcases begins_cases hf (hclear 0 _ rfl hstart.1) (hclear' 0 _ rfl hstart.2) with
        ⟨g, g', steps, hg, hsilently, hsilently'⟩ | ⟨result, hends⟩
      · have hmore := runFrom_mono hrun (Nat.le_add_right (fuel + 1) steps)
        rw [hsilently.run] at hmore
        obtain ⟨fuel', hrun'⟩ := ih.aligned hp hg hcallers (hclear.after hsilently.after)
          (hclear'.after hsilently'.after) hmore
        exact ⟨fuel' + steps, (hsilently'.run fuel' natives).trans hrun'⟩
      · obtain ⟨⟨more, hmore⟩, hrun'⟩ := hends natives
        rw [runFrom_unique hrun hmore]
        exact hrun'

/-- During the call, whenever a block is begun its phis can take effect together. -/
def CallsClear (m : Machine) (p : Program) (name : String) (arguments : List Float) : Prop :=
  ∀ frame, m.enter p 0 name arguments = .ok (.invoked frame) → RunsClear m p ⟨frame, []⟩

/-- What a clear call comes to does not depend on the order of phis. -/
theorem exists_call_of_reordered (hp : Reordered p p') {name : String} {arguments : List Float}
    (hclear : CallsClear m p name arguments) (hclear' : CallsClear m p' name arguments) {run : Run}
    (h : ∃ fuel, m.call p fuel name arguments = some run) :
    ∃ fuel, m.call p' fuel name arguments = some run := by
  obtain ⟨fuel, hrun⟩ := h
  unfold CallsClear at hclear hclear'
  unfold call at hrun ⊢
  have hentry := enter_alike (m := m) hp 0 name arguments
  generalize m.enter p 0 name arguments = entry at hentry hclear hrun
  generalize m.enter p' 0 name arguments = entry' at hentry hclear' ⊢
  cases hentry with
  | error e => exact ⟨fuel, hrun⟩
  | returned value call => exact ⟨fuel, hrun⟩
  | @invoked f f' hbegins =>
    exact followedWithin hp fuel (.begins hbegins .nil) (hclear f rfl) (hclear' f' rfl) hrun

/-- When control has passed on to a block, its phis are executed one after the other. If they are
untangled, each of their registers holds then what the chosen value was at the end of the block
before; if not, what an earlier phi has computed may take its place. As long as the phis are
untangled whenever a block is begun, what a call comes to does not depend on the order of the
phis. -/
theorem phis_together (m : Machine) (p : Program) :
    (∀ (callers : List Suspended) (before entered : Frame) (target : BlockId),
      before.moveTo target = .ok entered → entered.Offers (leadingPhis entered.block.instructions) →
      (∀ φ ∈ leadingPhis entered.block.instructions, (φ.chosen? (some before.current)).isSome) →
      ∃ later, m.stateAfter p (leadingPhis entered.block.instructions).length ⟨entered, callers⟩ =
          some ⟨later, callers⟩ ∧
        later.pending = behindPhis entered.block.instructions ∧
        entered.Settled later (leadingPhis entered.block.instructions) ∧
        (entered.Untangled (leadingPhis entered.block.instructions) →
          ∀ φ ∈ leadingPhis entered.block.instructions, ∀ v x,
            φ.chosen? (some before.current) = some v → before.Holds v x →
              later.Holds φ.target x)) ∧
    ∀ p', Reordered p p' → ∀ name arguments,
      CallsClear m p name arguments → CallsClear m p' name arguments →
      ∀ run, (∃ fuel, m.call p fuel name arguments = some run) ↔
        ∃ fuel, m.call p' fuel name arguments = some run := by
  constructor
  · intro callers before entered target hmove hoffers hchosen
    obtain ⟨block, rfl⟩ : ∃ block, entered =
        { before with
          previous := some before.current, current := target, block := block
          pending := block.instructions } := by
      unfold Frame.moveTo at hmove
      split at hmove
      · cases hmove
      · exact ⟨_, (Except.ok.inj hmove).symm⟩
    have hpending := Ssa.map_leadingPhis_append block.instructions
    obtain ⟨later, hsilently, hrest, hsettled⟩ :=
      exists_settled m p callers hpending.symm hoffers hchosen
    refine ⟨later, hsilently.after, hrest, hsettled, fun huntangled φ hφ v x hv hx => ?_⟩
    exact ((hsettled.together huntangled).chosen φ hφ v hv).trans hx
  · intro p' hp name arguments hclear hclear' run
    exact ⟨exists_call_of_reordered hp hclear hclear', exists_call_of_reordered hp.symm hclear' hclear⟩

/-- A loop that goes on as long as its first number is less than its second one. -/
def looping (phis : List Phi) : Program :=
  ⟨[⟨"f", ["x", "y"], some
    { slots := []
      blocks :=
        [⟨"entry", [], some (.branch ⟨1⟩)⟩,
          ⟨"loop", phis.map Phi.instruction ++ [.assign ⟨4⟩ (.compare .unorderedOrLess ⟨2⟩ ⟨3⟩)],
            some (.branchIf ⟨4⟩ ⟨1⟩ ⟨2⟩)⟩,
          ⟨"after", [], some (.ret ⟨3⟩)⟩]
      valueCount := 5 }⟩]⟩

/-- Phis that are executed before a comparison are those that the loop begins with. -/
theorem leadingPhis_map (phis : List Phi) (target : ValueId) (op : Ssa.Comparison)
    (left right : ValueId) :
    leadingPhis (phis.map Phi.instruction ++ [.assign target (.compare op left right)]) = phis ∧
      behindPhis (phis.map Phi.instruction ++ [.assign target (.compare op left right)]) =
        [.assign target (.compare op left right)] := by
  induction phis with
  | nil => exact ⟨rfl, rfl⟩
  | cons φ phis ih => exact ⟨congrArg (φ :: ·) ih.1, ih.2⟩

/-- Loops with the same phis differ in their order at most. -/
theorem reordered_looping (h : phis'.Perm phis) : Reordered (looping phis) (looping phis') := by
  have hsame (b : Block) : b.Reordered b := ⟨rfl, .rfl, rfl, rfl⟩
  have hloop := fun phis : List Phi => leadingPhis_map phis ⟨4⟩ .unorderedOrLess ⟨2⟩ ⟨3⟩
  intro name
  by_cases hname : "f" = name
  · subst hname
    refine .some ⟨rfl, .cons (hsame _) (.cons ⟨rfl, ?_, ?_, rfl⟩ (.cons (hsame _) .nil)), rfl⟩
    · simp only [(hloop phis).1, (hloop phis').1]
      exact h
    · exact (hloop phis').2.trans (hloop phis).2.symm
  · have hnone (phis : List Phi) : bodyOf? (looping phis) name = none := by
      simp [bodyOf?, looping, Program.find?, hname]
    rw [hnone, hnone]
    exact .none

/-- Phis that exchange the arguments of the call are untangled: they come to one in either order. -/
theorem exchange_untangled :
    let first : Phi := ⟨⟨2⟩, [(⟨0⟩, ⟨0⟩), (⟨1⟩, ⟨1⟩)]⟩
    let second : Phi := ⟨⟨3⟩, [(⟨1⟩, ⟨0⟩), (⟨0⟩, ⟨1⟩)]⟩
    Reordered (looping [first, second]) (looping [second, first]) ∧
      CallsClear standard (looping [first, second]) "f" [1, 2] ∧
      CallsClear standard (looping [second, first]) "f" [1, 2] ∧
      ∀ run, (∃ fuel, standard.call (looping [first, second]) fuel "f" [1, 2] = some run) ↔
        ∃ fuel, standard.call (looping [second, first]) fuel "f" [1, 2] = some run := by
  intro first second
  have hp : Reordered (looping [first, second]) (looping [second, first]) :=
    reordered_looping (.swap first second [])
  have hclear : CallsClear standard (looping [first, second]) "f" [1, 2] := by
    rintro frame ⟨⟩
    exact runsClear_of_end 10 (by decide +kernel) (by decide +kernel)
  have hclear' : CallsClear standard (looping [second, first]) "f" [1, 2] := by
    rintro frame ⟨⟩
    exact runsClear_of_end 10 (by decide +kernel) (by decide +kernel)
  exact ⟨hp, hclear, hclear', (phis_together standard _).2 _ hp "f" [1, 2] hclear hclear'⟩

/-- Two phis that exchange their numbers in every round are tangled. At the end of the first round
their registers hold one and two. Behind the phis of the second round the second register still
holds two, since the first phi has already been executed, and the call comes to two. If the phis are
listed the other way round it comes to one. -/
theorem exchange_tangled :
    let first : Phi := ⟨⟨2⟩, [(⟨0⟩, ⟨0⟩), (⟨3⟩, ⟨1⟩)]⟩
    let second : Phi := ⟨⟨3⟩, [(⟨1⟩, ⟨0⟩), (⟨2⟩, ⟨1⟩)]⟩
    Reordered (looping [first, second]) (looping [second, first]) ∧
    (∃ frame, standard.enter (looping [first, second]) 0 "f" [1, 2] = .ok (.invoked frame) ∧
      ((standard.stateAfter (looping [first, second]) 4 ⟨frame, []⟩).map fun state =>
        (state.frame.pending, (state.frame.number ⟨2⟩).toOption, (state.frame.number ⟨3⟩).toOption)) =
          some ([], some 1, some 2) ∧
      ((standard.stateAfter (looping [first, second]) 7 ⟨frame, []⟩).map fun state =>
        ((state.frame.number ⟨2⟩).toOption, (state.frame.number ⟨3⟩).toOption)) =
          some (some 2, some 2)) ∧
    ((standard.call (looping [first, second]) 20 "f" [1, 2]).map fun run => run.result.toOption) =
      some (some 2) ∧
    ((standard.call (looping [second, first]) 20 "f" [1, 2]).map fun run => run.result.toOption) =
      some (some 1) := by
  refine ⟨reordered_looping (.swap _ _ []), ⟨_, rfl, ?_, ?_⟩, ?_, ?_⟩
  · decide +kernel
  · decide +kernel
  · decide +kernel
  · decide +kernel

end Kaleidoscope.Machine
