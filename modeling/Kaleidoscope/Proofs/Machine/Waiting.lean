import Kaleidoscope.Proofs.Machine.Refinement

/-!
# Callers that wait

A caller is put on the stack when it calls a function with a body, and taken off when that call
returns. In between it is not touched, however deep the calls are nested meanwhile, and nothing but
the register for the result differs afterwards.
-/

namespace Kaleidoscope.Machine

open Ssa (Program ValueId)

variable {m : Machine} {p : Program} {frame : Frame} {callers : List Suspended} {caller : Suspended}
  {state next later : State} {native : Option NativeCall} {steps : Nat}

/-- The state after so many steps, if the run has not ended by then. -/
def stateAfter (m : Machine) (p : Program) : Nat → State → Option State
  | 0, state => some state
  | steps + 1, state =>
    match (m.step p state).status with
    | .running next => stateAfter m p steps next
    | .finished _ => none

/-- An invocation waits, with these callers of its own below it. -/
def Waits (caller : Suspended) (callers : List Suspended) (state : State) : Prop :=
  ∃ above, state.callers = above ++ caller :: callers

/-- An invocation goes on as it has been waiting, with a number in the register for the result. -/
structure Resumed (caller : Suspended) (x : Float) (frame : Frame) : Prop where
  elsewhere : frame = { caller.frame with registers := frame.registers }
  size : frame.registers.size = caller.frame.registers.size
  result : frame.registers[caller.target.index]? = some (some (.number x))
  others : ∀ i, i ≠ caller.target.index → frame.registers[i]? = caller.frame.registers[i]?

/-- An invocation goes on after it has been waiting for so many steps. -/
inductive Returns (m : Machine) (p : Program) (caller : Suspended) (callers : List Suspended) :
    Nat → State → Prop where
  | resumed {x : Float} {frame : Frame} : Resumed caller x frame →
      Returns m p caller callers 0 ⟨frame, callers⟩
  | waits {steps : Nat} {state next : State} {native : Option NativeCall} :
      Waits caller callers state → m.step p state = ⟨.running next, native⟩ →
      Returns m p caller callers steps next → Returns m p caller callers (steps + 1) state

/-- A caller is resumed where its register takes the number that is given back. -/
theorem resumed_of_assign {x : Float}
    (h : caller.frame.assign caller.target (.number x) = .ok frame) : Resumed caller x frame := by
  unfold Frame.assign at h
  split at h
  · rename_i hlt
    obtain rfl := Except.ok.inj h
    refine ⟨rfl, Array.size_set hlt, ?_, fun i hi => ?_⟩
    · exact Array.getElem?_set_self hlt
    · exact Array.getElem?_set_ne hlt hi.symm
  · cases h

/-- Going on changes no callers. -/
theorem exists_of_goOn {result : Except RuntimeError Frame}
    (h : Status.goOn callers result = .running next) :
    ∃ frame, result = .ok frame ∧ next = ⟨frame, callers⟩ := by
  cases result with
  | error e => cases h
  | ok frame =>
    cases h
    exact ⟨frame, rfl, rfl⟩

/-- Giving a value back resumes the innermost caller. -/
theorem callers_of_giveBack {x : Float} (h : Status.giveBack x callers = .running next) :
    ∃ caller, callers = caller :: next.callers ∧ Resumed caller x next.frame := by
  cases callers with
  | nil => cases h
  | cons caller callers =>
    obtain ⟨frame, hframe, rfl⟩ := exists_of_goOn h
    exact ⟨caller, rfl, resumed_of_assign hframe⟩

/-- Leaving a block leads to another one or back to the innermost caller. -/
theorem callers_of_stepTerminator (h : stepTerminator frame callers = .running next) :
    next.callers = callers ∨
      ∃ caller x, callers = caller :: next.callers ∧ Resumed caller x next.frame := by
  unfold stepTerminator at h
  split at h
  · cases h
  · obtain ⟨frame, -, rfl⟩ := exists_of_goOn h
    exact .inl rfl
  · obtain ⟨frame, -, rfl⟩ := exists_of_goOn h
    exact .inl rfl
  · split at h
    · cases h
    · obtain ⟨caller, hcallers, hresumed⟩ := callers_of_giveBack h
      exact .inr ⟨caller, _, hcallers, hresumed⟩

/-- The caller of a function with a body is put on the stack as it is, and a native function returns
at once. -/
theorem callers_of_stepCall {target : ValueId} {callee : String} {arguments : List ValueId}
    (h : m.stepCall p frame callers target callee arguments = ⟨.running next, native⟩) :
    next.callers = ⟨frame, target⟩ :: callers ∨
      next.callers = callers ∧ ∃ x, Resumed ⟨frame, target⟩ x next.frame := by
  unfold stepCall at h
  split at h
  · cases h
  · split at h
    · cases h
    · obtain ⟨frame, hframe, rfl⟩ := exists_of_goOn (congrArg Step.status h)
      exact .inr ⟨rfl, _, resumed_of_assign hframe⟩
    · cases h
      exact .inl rfl

/-- What a step does to the stack: nothing, or a caller is put on it or taken off it. -/
theorem callers_of_step (h : m.step p ⟨frame, callers⟩ = ⟨.running next, native⟩) :
    next.callers = callers ∨ (∃ caller, next.callers = caller :: callers) ∨
      ∃ caller x, callers = caller :: next.callers ∧ Resumed caller x next.frame := by
  cases hpending : frame.pending with
  | nil =>
    rw [step_terminator hpending] at h
    exact (callers_of_stepTerminator (congrArg Step.status h)).imp_right .inr
  | cons instruction pending =>
    cases instruction with
    | assign target operation =>
      rw [step_assign hpending] at h
      obtain ⟨frame, -, rfl⟩ := exists_of_goOn (congrArg Step.status h)
      exact .inl rfl
    | store slot v =>
      rw [step_store hpending] at h
      obtain ⟨frame, -, rfl⟩ := exists_of_goOn (congrArg Step.status h)
      exact .inl rfl
    | call target callee arguments =>
      rw [step_call hpending] at h
      rcases callers_of_stepCall h with hcallers | ⟨hcallers, -⟩
      · exact .inr (.inl ⟨_, hcallers⟩)
      · exact .inl hcallers

/-- A step leaves a waiting caller alone, or it resumes it. -/
theorem Waits.step (h : Waits caller callers state)
    (hstep : m.step p state = ⟨.running next, native⟩) :
    Waits caller callers next ∨ next.callers = callers ∧ ∃ x, Resumed caller x next.frame := by
  obtain ⟨above, habove⟩ := h
  rcases callers_of_step hstep with hcallers | ⟨inner, hcallers⟩ | ⟨inner, x, hcallers, hresumed⟩
  · exact .inl ⟨above, hcallers.trans habove⟩
  · exact .inl ⟨inner :: above, hcallers.trans (congrArg (inner :: ·) habove)⟩
  · rw [habove] at hcallers
    cases above with
    | nil =>
      obtain ⟨rfl, hrest⟩ := List.cons.inj hcallers
      exact .inr ⟨hrest.symm, x, hresumed⟩
    | cons other above =>
      obtain ⟨-, hrest⟩ := List.cons.inj hcallers
      exact .inl ⟨above, hrest.symm⟩

/-- A caller waits until it is resumed. -/
theorem Waits.run (h : Waits caller callers state) (hafter : m.stateAfter p steps state = some later) :
    Waits caller callers later ∨ ∃ k ≤ steps, Returns m p caller callers k state := by
  induction steps generalizing state with
  | zero =>
    obtain rfl := Option.some.inj hafter
    exact .inl h
  | succ steps ih =>
    rw [stateAfter] at hafter
    rcases hstep : m.step p state with ⟨status, native⟩
    rw [hstep] at hafter
    cases status with
    | finished result => cases hafter
    | running next =>
      rcases h.step hstep with hwaits | ⟨rfl, x, hresumed⟩
      · refine (ih hwaits hafter).imp_right fun ⟨k, hle, hreturns⟩ => ?_
        exact ⟨k + 1, Nat.succ_le_succ hle, .waits h hstep hreturns⟩
      · exact .inr ⟨1, Nat.succ_le_succ (Nat.zero_le steps), .waits h hstep (.resumed hresumed)⟩

/-- From a call on, the caller waits until it is resumed behind the call. -/
theorem waits_of_call {target : ValueId} {callee : String} {arguments : List ValueId}
    {pending : List Ssa.Instruction} (hpending : frame.pending = .call target callee arguments :: pending)
    (hstep : m.step p ⟨frame, callers⟩ = ⟨.running next, native⟩)
    (hafter : m.stateAfter p steps next = some later) :
    Waits ⟨{ frame with pending := pending }, target⟩ callers later ∨
      ∃ k ≤ steps, Returns m p ⟨{ frame with pending := pending }, target⟩ callers k next := by
  rw [step_call hpending] at hstep
  rcases callers_of_stepCall hstep with hcallers | ⟨rfl, x, hresumed⟩
  · exact Waits.run ⟨[], hcallers⟩ hafter
  · exact .inr ⟨0, Nat.zero_le steps, .resumed hresumed⟩

/-- The machine comes to an end for a call exactly if the recursion does, with the same result and
the same calls of native functions. From each call that is executed on the way, and in any other
state, the caller and its own callers wait as they are, until the caller goes on behind the call
with the result in its register and nothing else changed. -/
theorem call_refines_recursion (m : Machine) (p : Program) :
    (∀ name arguments run, (∃ fuel, m.call p fuel name arguments = some run) ↔
      ∃ steps, m.callByRecursion p steps name arguments = some run) ∧
    ∀ frame callers target callee arguments pending,
      frame.pending = .call target callee arguments :: pending →
      ∀ next native, m.step p ⟨frame, callers⟩ = ⟨.running next, native⟩ →
      ∀ steps later, m.stateAfter p steps next = some later →
        Waits ⟨{ frame with pending := pending }, target⟩ callers later ∨
          ∃ k ≤ steps, Returns m p ⟨{ frame with pending := pending }, target⟩ callers k next :=
  ⟨exists_call_iff m p, fun _ _ _ _ _ _ hpending _ _ hstep _ _ hafter =>
    waits_of_call hpending hstep hafter⟩

end Kaleidoscope.Machine
