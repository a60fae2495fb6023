import Kaleidoscope.Machine

/-!
# Runs of the machine

A run is one step and a run from the state behind it. The number of steps that a run is given only
decides whether it comes to its end.
-/

namespace Kaleidoscope.Machine

open Ssa (Operation Program SlotId ValueId)

variable {m : Machine} {p : Program} {frame : Frame} {pending : List Ssa.Instruction}
  {callers : List Suspended}

/-- Behind the last instruction comes the terminator. -/
theorem step_terminator (h : frame.pending = []) :
    m.step p ⟨frame, callers⟩ = ⟨stepTerminator frame callers, none⟩ := by
  simp only [step, h]

/-- A pending operation is computed by the next step. -/
theorem step_assign {target : ValueId} {operation : Operation}
    (h : frame.pending = .assign target operation :: pending) :
    m.step p ⟨frame, callers⟩ = ⟨.goOn callers (({ frame with pending := pending } : Frame).evaluate
      operation >>= ({ frame with pending := pending } : Frame).assign target), none⟩ := by
  simp only [step, h]

/-- A pending store is executed by the next step. -/
theorem step_store {slot : SlotId} {v : ValueId} (h : frame.pending = .store slot v :: pending) :
    m.step p ⟨frame, callers⟩ = ⟨.goOn callers (({ frame with pending := pending } : Frame).number v
      >>= ({ frame with pending := pending } : Frame).store slot), none⟩ := by
  simp only [step, h]

/-- A pending call is begun by the next step. -/
theorem step_call {target : ValueId} {callee : String} {arguments : List ValueId}
    (h : frame.pending = .call target callee arguments :: pending) :
    m.step p ⟨frame, callers⟩ =
      m.stepCall p { frame with pending := pending } callers target callee arguments := by
  simp only [step, h]

/-- A run goes on behind a step that does not end it. -/
theorem runFrom_succ_of_running {state next : State} {native : Option NativeCall}
    (h : m.step p state = ⟨.running next, native⟩) (fuel : Nat) (natives : List NativeCall) :
    m.runFrom p (fuel + 1) state natives = m.runFrom p fuel next (native.toList ++ natives) := by
  rw [runFrom, h]

/-- A run ends with a step that ends it. -/
theorem runFrom_succ_of_finished {state : State} {result : Except RuntimeError Float}
    {native : Option NativeCall} (h : m.step p state = ⟨.finished result, native⟩) (fuel : Nat)
    (natives : List NativeCall) :
    m.runFrom p (fuel + 1) state natives = some ⟨result, (native.toList ++ natives).reverse⟩ := by
  rw [runFrom, h]

/-- A run that has come to its end comes to the same end when it is given more steps. -/
theorem runFrom_mono {fuel more : Nat} {state : State} {natives : List NativeCall} {run : Run}
    (h : m.runFrom p fuel state natives = some run) (hle : fuel ≤ more) :
    m.runFrom p more state natives = some run := by
  induction fuel generalizing more state natives with
  | zero => cases h
  | succ fuel ih =>
    obtain ⟨more, rfl⟩ := Nat.exists_eq_add_of_le' (Nat.le_trans (Nat.succ_pos fuel) hle)
    rcases hstep : m.step p state with ⟨status, native⟩
    cases status with
    | finished result =>
      rw [runFrom_succ_of_finished hstep] at h ⊢
      exact h
    | running next =>
      rw [runFrom_succ_of_running hstep] at h ⊢
      exact ih h (Nat.le_of_succ_le_succ hle)

/-- A run that has not come to its end has not done so after fewer steps. -/
theorem runFrom_eq_none_of_le {fuel fewer : Nat} {state : State} {natives : List NativeCall}
    (h : m.runFrom p fuel state natives = none) (hle : fewer ≤ fuel) :
    m.runFrom p fewer state natives = none := by
  cases hrun : m.runFrom p fewer state natives with
  | none => rfl
  | some run =>
    rw [runFrom_mono hrun hle] at h
    cases h

/-- A run has one end. -/
theorem runFrom_unique {fuel fuel' : Nat} {state : State} {natives : List NativeCall}
    {run run' : Run} (h : m.runFrom p fuel state natives = some run)
    (h' : m.runFrom p fuel' state natives = some run') : run = run' := by
  have hmore := runFrom_mono h (Nat.le_max_left fuel fuel')
  have hmore' := runFrom_mono h' (Nat.le_max_right fuel fuel')
  rw [hmore] at hmore'
  exact Option.some.inj hmore'

/-- What a call from outside comes to does not depend on the number of steps it is given. -/
theorem call_unique {fuel fuel' : Nat} {name : String} {arguments : List Float} {run run' : Run}
    (h : m.call p fuel name arguments = some run)
    (h' : m.call p fuel' name arguments = some run') : run = run' := by
  unfold call at h h'
  cases henter : m.enter p 0 name arguments with
  | error e =>
    rw [henter] at h h'
    exact Option.some.inj (h.symm.trans h')
  | ok entry =>
    rw [henter] at h h'
    cases entry with
    | returned value call => exact Option.some.inj (h.symm.trans h')
    | invoked frame => exact runFrom_unique h h'

end Kaleidoscope.Machine
