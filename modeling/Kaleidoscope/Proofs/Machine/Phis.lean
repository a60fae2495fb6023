import Kaleidoscope.Proofs.Machine.Registers
import Kaleidoscope.Proofs.Machine.Waiting

/-!
# Phis, one after the other

The phis at the beginning of a block are instructions like any others: the machine executes them in
the order in which they are listed, and each of them reads its register when its turn comes. So a
phi gets what the value that it chooses was when control left the block before, unless that value is
computed by a phi that is listed earlier. Then it gets what the earlier phi has just computed. Where
this does not happen, the phis take effect together.
-/

namespace Kaleidoscope

namespace Ssa

/-- A phi, with the value that it computes. -/
structure Phi where
  target : ValueId
  incoming : List (ValueId × BlockId)

/-- The instruction that executes a phi. -/
def Phi.instruction (φ : Phi) : Instruction := .assign φ.target (.phi φ.incoming)

/-- The value that a phi chooses, given the block that control comes from. -/
def Phi.chosen? (φ : Phi) (previous : Option BlockId) : Option ValueId :=
  (φ.incoming.find? fun alternative => some alternative.2 = previous).map Prod.fst

/-- The phis that instructions begin with. -/
def leadingPhis : List Instruction → List Phi
  | .assign target (.phi incoming) :: rest => ⟨target, incoming⟩ :: leadingPhis rest
  | _ => []

/-- What follows the phis that instructions begin with. -/
def behindPhis : List Instruction → List Instruction
  | .assign _ (.phi _) :: rest => behindPhis rest
  | rest => rest

/-- Instructions are the phis that they begin with and what follows. -/
theorem map_leadingPhis_append (instructions : List Instruction) :
    (leadingPhis instructions).map Phi.instruction ++ behindPhis instructions = instructions := by
  fun_induction leadingPhis instructions with
  | case1 target incoming rest ih => exact congrArg (_ :: ·) ih
  | case2 rest hnone =>
    cases rest with
    | nil => rfl
    | cons instruction more =>
      cases instruction with
      | assign target operation =>
        cases operation with
        | phi incoming => exact (hnone target incoming more rfl).elim
        | _ => rfl
      | _ => rfl

/-- Different values have different registers. -/
theorem index_ne {v w : ValueId} (h : v ≠ w) : v.index ≠ w.index := by
  cases v
  cases w
  simpa using h

end Ssa

namespace Machine

open Ssa (Phi Program ValueId)

variable {m : Machine} {p : Program} {f f' g g' : Frame} {callers : List Suspended}
  {state next last : State} {steps : Nat} {phis phis' : List Phi} {rest : List Ssa.Instruction}

/-- So many steps lead from one state to another, and none of them calls a native function. -/
structure Silently (m : Machine) (p : Program) (steps : Nat) (state next : State) : Prop where
  after : m.stateAfter p steps state = some next
  run : ∀ fuel natives, m.runFrom p (fuel + steps) state natives = m.runFrom p fuel next natives

namespace Silently

/-- No steps call nothing. -/
theorem refl (m : Machine) (p : Program) (state : State) : Silently m p 0 state state :=
  ⟨rfl, fun _ _ => rfl⟩

/-- A step that calls no native function may come before others of that sort. -/
theorem cons (hstep : m.step p state = ⟨.running next, none⟩) (h : Silently m p steps next last) :
    Silently m p (steps + 1) state last where
  after := by
    rw [stateAfter, hstep]
    exact h.after
  run fuel natives := by
    rw [← Nat.add_assoc, runFrom_succ_of_running hstep]
    exact h.run fuel natives

end Silently

/-- A phi reads the register that it chooses. -/
theorem Frame.evaluate_phi {φ : Phi} {v : ValueId} (hchosen : φ.chosen? f.previous = some v) :
    f.evaluate (.phi φ.incoming) = f.value v := by
  obtain ⟨alternative, hfind, rfl⟩ := Option.map_eq_some_iff.1 hchosen
  rw [evaluate, hfind]

/-- A phi without an alternative for the block that control comes from is at fault. -/
theorem Frame.evaluate_phi_of_none {φ : Phi} (hnone : φ.chosen? f.previous = none) :
    f.evaluate (.phi φ.incoming) = f.fault (.missingAlternative f.block.label) := by
  rw [evaluate, Option.map_eq_none_iff.1 hnone]

/-- The frame behind a phi. -/
def Frame.behindPhi (f : Frame) (rest : List Ssa.Instruction) (φ : Phi)
    (hrange : φ.target.index < f.registers.size) (x : Value) : Frame :=
  { f with pending := rest, registers := f.registers.set φ.target.index (some x) hrange }

/-- Behind a phi, its register holds the value. -/
theorem Frame.behindPhi_self {φ : Phi} (hrange : φ.target.index < f.registers.size) (x : Value) :
    (f.behindPhi rest φ hrange x).registers[φ.target.index]? = some (some x) :=
  Array.getElem?_set_self hrange

/-- Behind a phi, the other registers are as before. -/
theorem Frame.behindPhi_ne {φ : Phi} (hrange : φ.target.index < f.registers.size) (x : Value)
    {i : Nat} (hi : φ.target.index ≠ i) :
    (f.behindPhi rest φ hrange x).registers[i]? = f.registers[i]? :=
  Array.getElem?_set_ne hrange hi

/-- The step that executes a phi. -/
theorem step_phi {φ : Phi} (hpending : f.pending = φ.instruction :: rest)
    (hrange : φ.target.index < f.registers.size) {v : ValueId} {x : Value}
    (hchosen : φ.chosen? f.previous = some v) (hx : f.Holds v x) :
    m.step p ⟨f, callers⟩ = ⟨.running ⟨f.behindPhi rest φ hrange x, callers⟩, none⟩ := by
  rw [step_assign hpending, Frame.evaluate_pending, Frame.evaluate_phi hchosen, hx.value_eq]
  have hassign := Frame.assign_eq (f := { f with pending := rest }) hrange x
  exact congrArg (fun result => (⟨Status.goOn callers result, none⟩ : Step)) hassign

/-- Each phi has a register of its own, and what it chooses is defined. -/
structure Frame.Offers (f : Frame) (phis : List Phi) : Prop where
  distinct : (phis.map Phi.target).Nodup
  inRange : ∀ φ ∈ phis, φ.target.index < f.registers.size
  defined : ∀ φ ∈ phis, ∀ v, φ.chosen? f.previous = some v → ∃ x, f.Holds v x

/-- What there is behind the phis of a block. Nothing but their registers differs. Each of these
holds what the phi chooses held before all of them, or what an earlier phi holds if that is what it
chooses. -/
structure Frame.Settled (f g : Frame) (phis : List Phi) : Prop where
  elsewhere : g = { f with pending := g.pending, registers := g.registers }
  size : g.registers.size = f.registers.size
  others : ∀ i, (∀ φ ∈ phis, φ.target.index ≠ i) → g.registers[i]? = f.registers[i]?
  early : ∀ before φ behind, phis = before ++ φ :: behind → ∀ v, φ.chosen? f.previous = some v →
    (∀ ψ ∈ before, ψ.target ≠ v) → g.registers[φ.target.index]? = f.registers[v.index]?
  late : ∀ before φ behind, phis = before ++ φ :: behind → ∀ ψ ∈ before,
    φ.chosen? f.previous = some ψ.target →
      g.registers[φ.target.index]? = g.registers[ψ.target.index]?

/-- The phis behind one that has been executed have what they need, too. -/
theorem Frame.Offers.behindPhi {φ : Phi} (h : f.Offers (φ :: phis))
    (hrange : φ.target.index < f.registers.size) (x : Value) :
    (f.behindPhi rest φ hrange x).Offers phis where
  distinct := (List.nodup_cons.1 h.distinct).2
  inRange ψ hψ := by
    rw [Frame.behindPhi, Array.size_set]
    exact h.inRange ψ (List.mem_cons_of_mem _ hψ)
  defined ψ hψ v hv := by
    unfold Holds
    by_cases hsame : φ.target.index = v.index
    · exact ⟨x, hsame ▸ behindPhi_self hrange x⟩
    · rw [behindPhi_ne hrange x hsame]
      exact h.defined ψ (List.mem_cons_of_mem _ hψ) v hv

/-- The first phi is settled when the others are settled behind it. -/
theorem Frame.Settled.cons {φ : Phi} {x : Value} {hrange : φ.target.index < f.registers.size}
    (h : (f.behindPhi rest φ hrange x).Settled g phis) (hoffers : f.Offers (φ :: phis))
    {v : ValueId} (hchosen : φ.chosen? f.previous = some v) (hx : f.Holds v x) :
    f.Settled g (φ :: phis) := by
  have hother (ψ) (hψ : ψ ∈ phis) : ψ.target ≠ φ.target := fun heq =>
    (List.nodup_cons.1 hoffers.distinct).1 (heq ▸ List.mem_map_of_mem hψ)
  -- No later phi writes to the register of the first one.
  have hfirst : g.registers[φ.target.index]? =
      (f.behindPhi rest φ hrange x).registers[φ.target.index]? :=
    h.others _ fun ψ hψ => Ssa.index_ne (hother ψ hψ)
  refine ⟨h.elsewhere, h.size.trans (Array.size_set hrange), fun i hi => ?_, ?early, ?late⟩
  · rw [h.others i fun ψ hψ => hi ψ (List.mem_cons_of_mem _ hψ)]
    exact behindPhi_ne hrange x (hi φ List.mem_cons_self)
  case early =>
    intro before ψ behind heq w hw hfree
    cases before with
    | nil =>
      obtain ⟨rfl, -⟩ := List.cons.inj heq
      obtain rfl := Option.some.inj (hchosen.symm.trans hw)
      rw [hfirst, behindPhi_self]
      exact hx.symm
    | cons first before =>
      obtain ⟨rfl, hrest⟩ := List.cons.inj heq
      rw [h.early before ψ behind hrest w hw fun χ hχ => hfree χ (List.mem_cons_of_mem _ hχ)]
      exact behindPhi_ne hrange x (Ssa.index_ne (hfree φ List.mem_cons_self))
  case late =>
    intro before ψ behind heq χ hχ hw
    cases before with
    | nil => cases hχ
    | cons first before =>
      obtain ⟨rfl, hrest⟩ := List.cons.inj heq
      rcases List.mem_cons.1 hχ with rfl | hbefore
      · rw [hfirst]
        refine h.early before ψ behind hrest _ hw fun χ' hχ' => hother χ' ?_
        exact hrest ▸ List.mem_append_left _ hχ'
      · exact h.late before ψ behind hrest χ hbefore hw

/-- The phis at the beginning of a block are executed one after the other. -/
theorem exists_settled (m : Machine) (p : Program) (callers : List Suspended)
    (hpending : f.pending = phis.map Phi.instruction ++ rest) (hoffers : f.Offers phis)
    (hchosen : ∀ φ ∈ phis, (φ.chosen? f.previous).isSome) :
    ∃ g, Silently m p phis.length ⟨f, callers⟩ ⟨g, callers⟩ ∧ g.pending = rest ∧ f.Settled g phis := by
  induction phis generalizing f with
  | nil =>
    refine ⟨f, .refl m p _, hpending, rfl, rfl, fun _ _ => rfl, ?_, ?_⟩
    · intro before φ behind heq
      exact (List.append_ne_nil_of_right_ne_nil before (List.cons_ne_nil _ _) heq.symm).elim
    · intro before φ behind heq
      exact (List.append_ne_nil_of_right_ne_nil before (List.cons_ne_nil _ _) heq.symm).elim
  | cons φ phis ih =>
    obtain ⟨v, hv⟩ := Option.isSome_iff_exists.1 (hchosen φ List.mem_cons_self)
    obtain ⟨x, hx⟩ := hoffers.defined φ List.mem_cons_self v hv
    have hrange := hoffers.inRange φ List.mem_cons_self
    obtain ⟨g, hsilently, hrest, hsettled⟩ :=
      ih (f := f.behindPhi (phis.map Phi.instruction ++ rest) φ hrange x) rfl
        (hoffers.behindPhi hrange x) fun ψ hψ => hchosen ψ (List.mem_cons_of_mem _ hψ)
    exact ⟨g, hsilently.cons (step_phi hpending hrange hv hx), hrest, hsettled.cons hoffers hv hx⟩

/-- A phi that has no alternative ends the run, wherever it is listed. -/
theorem exists_run_of_missing (m : Machine) (p : Program) (callers : List Suspended)
    (hpending : f.pending = phis.map Phi.instruction ++ rest) (hoffers : f.Offers phis)
    (hmissing : ∃ φ ∈ phis, φ.chosen? f.previous = none) (natives : List NativeCall) :
    ∃ fuel, m.runFrom p fuel ⟨f, callers⟩ natives =
      some ⟨f.fault (.missingAlternative f.block.label), natives.reverse⟩ := by
  induction phis generalizing f with
  | nil =>
    obtain ⟨φ, hφ, -⟩ := hmissing
    cases hφ
  | cons φ phis ih =>
    cases hv : φ.chosen? f.previous with
    | none =>
      have hstep : m.step p ⟨f, callers⟩ =
          ⟨.finished (f.fault (.missingAlternative f.block.label)), none⟩ := by
        rw [step_assign hpending, Frame.evaluate_pending, Frame.evaluate_phi_of_none hv]
        rfl
      exact ⟨1, runFrom_succ_of_finished hstep 0 natives⟩
    | some v =>
      obtain ⟨x, hx⟩ := hoffers.defined φ List.mem_cons_self v hv
      have hrange := hoffers.inRange φ List.mem_cons_self
      have hlater : ∃ ψ ∈ phis, ψ.chosen? f.previous = none := by
        obtain ⟨ψ, hψ, hnone⟩ := hmissing
        rcases List.mem_cons.1 hψ with rfl | hψ
        · cases hv.symm.trans hnone
        · exact ⟨ψ, hψ, hnone⟩
      obtain ⟨fuel, hrun⟩ :=
        ih (f := f.behindPhi (phis.map Phi.instruction ++ rest) φ hrange x) rfl
          (hoffers.behindPhi hrange x) hlater
      refine ⟨fuel + 1, ?_⟩
      rw [runFrom_succ_of_running (step_phi hpending hrange hv hx)]
      exact hrun

/-- No phi chooses a value that a phi listed before it computes. -/
def Frame.Untangled (f : Frame) (phis : List Phi) : Prop :=
  phis.Pairwise fun earlier later => later.chosen? f.previous ≠ some earlier.target

/-- What there is behind the phis of a block if they take effect together. Each of their registers
holds what the phi chooses held before them. -/
structure Frame.Together (f g : Frame) (phis : List Phi) : Prop where
  elsewhere : g = { f with pending := g.pending, registers := g.registers }
  others : ∀ i, (∀ φ ∈ phis, φ.target.index ≠ i) → g.registers[i]? = f.registers[i]?
  chosen : ∀ φ ∈ phis, ∀ v, φ.chosen? f.previous = some v →
    g.registers[φ.target.index]? = f.registers[v.index]?

/-- Untangled phis take effect together. -/
theorem Frame.Settled.together (h : f.Settled g phis) (huntangled : f.Untangled phis) :
    f.Together g phis := by
  refine ⟨h.elsewhere, h.others, fun φ hφ v hv => ?_⟩
  obtain ⟨before, behind, rfl⟩ := List.append_of_mem hφ
  refine h.early before φ behind rfl v hv fun ψ hψ heq => ?_
  exact (List.pairwise_append.1 huntangled).2.2 ψ hψ φ List.mem_cons_self (heq ▸ hv)

/-- What phis lead to together does not depend on their order. -/
theorem Frame.Together.registers_eq (h : f.Together g phis) (h' : f'.Together g' phis')
    (hperm : phis'.Perm phis) (hregisters : f'.registers = f.registers)
    (hprevious : f'.previous = f.previous)
    (hchosen : ∀ φ ∈ phis, (φ.chosen? f.previous).isSome) : g'.registers = g.registers := by
  refine Array.ext_getElem? fun i => ?_
  by_cases hi : ∃ φ ∈ phis, φ.target.index = i
  · obtain ⟨φ, hφ, rfl⟩ := hi
    obtain ⟨v, hv⟩ := Option.isSome_iff_exists.1 (hchosen φ hφ)
    rw [h.chosen φ hφ v hv, h'.chosen φ (hperm.mem_iff.2 hφ) v (hprevious ▸ hv), hregisters]
  · have hother (φ) (hφ : φ ∈ phis) : φ.target.index ≠ i := fun heq => hi ⟨φ, hφ, heq⟩
    rw [h.others i hother, h'.others i fun φ hφ => hother φ (hperm.mem_iff.1 hφ), hregisters]

end Machine

end Kaleidoscope
