import Kaleidoscope.Proofs.Machine.Recursion

/-!
# The stack of the machine stands for the recursion

The machine executes an invocation in the presence of any waiting callers as the recursion executes
it alone: if the recursion gives a value, the machine comes to give that value back to the innermost
caller; if the recursion fails, the machine stops alike; and if the steps do not suffice, the
machine is still running after as many. The last part makes both come to an end for the same calls.
-/

namespace Kaleidoscope.Machine

open Execution
open Ssa (Program ValueId)

variable {m : Machine} {p : Program} {steps depth : Nat} {status : Status} {state : State}
  {callers waiting : List Suspended} {natives : List NativeCall} {action : Execution Float}

/-- Go on for at most `fuel` steps behind a step. -/
def proceed (m : Machine) (p : Program) (fuel : Nat) : Status → List NativeCall → Option Run
  | .finished result, natives => some ⟨result, natives.reverse⟩
  | .running state, natives => m.runFrom p fuel state natives

/-- A run is one step and what is behind it. -/
theorem runFrom_succ (fuel : Nat) (state : State) (natives : List NativeCall) :
    m.runFrom p (fuel + 1) state natives =
      m.proceed p fuel (m.step p state).status ((m.step p state).native.toList ++ natives) := by
  rcases hstep : m.step p state with ⟨status, native⟩
  cases status with
  | finished result => exact runFrom_succ_of_finished hstep fuel natives
  | running next => exact runFrom_succ_of_running hstep fuel natives

/-- What has not come to its end has not done so after fewer steps. -/
theorem proceed_eq_none_of_le {fuel fewer : Nat} (h : m.proceed p fuel status natives = none)
    (hle : fewer ≤ fuel) : m.proceed p fewer status natives = none := by
  cases status with
  | finished result => cases h
  | running state => exact runFrom_eq_none_of_le h hle

/-- The machine follows a computation that has this outcome. A value goes to the innermost of the
callers. -/
def Follows (m : Machine) (p : Program) (steps : Nat) (status : Status) (callers : List Suspended)
    (natives : List NativeCall) : Option (Except RuntimeError Float × List NativeCall) → Prop
  | none => m.proceed p steps status natives = none
  | some (.error e, after) =>
    ∃ more, m.proceed p more status natives = some ⟨.error e, after.reverse⟩
  | some (.ok x, after) => ∃ more, ∀ fuel,
    m.proceed p (fuel + more) status natives = m.proceed p fuel (.giveBack x callers) after

/-- The machine follows a computation, whatever has been recorded before. -/
def Performs (m : Machine) (p : Program) (steps : Nat) (status : Status) (callers : List Suspended)
    (action : Execution Float) : Prop :=
  ∀ natives, Follows m p steps status callers natives (action.run.run natives)

/-- A step leads up to what the machine follows from there on. -/
theorem Follows.of_step {native : Option NativeCall}
    {outcome : Option (Except RuntimeError Float × List NativeCall)}
    (h : Follows m p steps status callers (native.toList ++ natives) outcome)
    (hstep : m.step p state = ⟨status, native⟩) :
    Follows m p (steps + 1) (.running state) callers natives outcome := by
  have hrun (fuel : Nat) : m.proceed p (fuel + 1) (.running state) natives =
      m.proceed p fuel status (native.toList ++ natives) := by
    rw [proceed, runFrom_succ, hstep]
  match outcome with
  | none => exact (hrun steps).trans h
  | some (.error e, after) =>
    obtain ⟨more, hmore⟩ := h
    exact ⟨more + 1, (hrun more).trans hmore⟩
  | some (.ok x, after) =>
    obtain ⟨more, hmore⟩ := h
    exact ⟨more + 1, fun fuel => (hrun (fuel + more)).trans (hmore fuel)⟩

namespace Performs

/-- A run that has ended by a failure follows the computation that fails so. -/
theorem throw (e : RuntimeError) :
    Performs m p steps (.finished (.error e)) callers (throw e) :=
  fun _ => ⟨0, rfl⟩

/-- A value that is about to be given back follows the computation that has it. -/
theorem pure (x : Float) : Performs m p steps (.giveBack x callers) callers (pure x) :=
  fun _ => ⟨0, fun _ => rfl⟩

/-- An invocation goes on unless it has failed. -/
theorem goOn {result : Except RuntimeError Frame} {next : Frame → Execution Float}
    (h : ∀ frame, Performs m p steps (.running ⟨frame, callers⟩) callers (next frame)) :
    Performs m p steps (.goOn callers result) callers (attempt result >>= next) := by
  cases result with
  | error e => exact Performs.throw e
  | ok frame => exact h frame

/-- Going on with a frame follows a computation that goes on with the same frame. -/
theorem goOn_inl {result : Except RuntimeError Frame} {next : Frame ⊕ Float → Execution Float}
    (h : ∀ frame, Performs m p steps (.running ⟨frame, callers⟩) callers (next (.inl frame))) :
    Performs m p steps (.goOn callers result) callers
      (attempt (result >>= fun frame => Pure.pure (.inl frame)) >>= next) := by
  cases result with
  | error e => exact Performs.throw e
  | ok frame => exact h frame

/-- A step that calls no native function. -/
theorem of_step (h : Performs m p steps status callers action)
    (hstep : m.step p state = ⟨status, none⟩) :
    Performs m p (steps + 1) (.running state) callers action :=
  fun natives => (h natives).of_step hstep

/-- A step that calls a native function. -/
theorem of_native {call : NativeCall} (h : Performs m p steps status callers action)
    (hstep : m.step p state = ⟨status, some call⟩) :
    Performs m p (steps + 1) (.running state) callers (record call >>= fun _ => action) :=
  fun natives => (h (call :: natives)).of_step hstep

/-- What follows a computation begins where its value is given back. -/
theorem bind {more : Nat} {next : Float → Execution Float}
    (h : Performs m p more status waiting action) (hle : steps ≤ more)
    (hnext : ∀ x, Performs m p steps (.giveBack x waiting) callers (next x)) :
    Performs m p steps status callers (action >>= next) := by
  intro natives
  have haction := h natives
  rw [run_bind]
  match hrun : action.run.run natives with
  | none =>
    rw [hrun] at haction
    exact proceed_eq_none_of_le haction hle
  | some (.error e, after) =>
    rw [hrun] at haction
    exact haction
  | some (.ok x, after) =>
    rw [hrun] at haction
    obtain ⟨first, hfirst⟩ := haction
    have hrest := hnext x after
    dsimp only
    match hlast : (next x).run.run after with
    | none =>
      rw [hlast] at hrest
      exact proceed_eq_none_of_le ((hfirst steps).trans hrest) (Nat.le_add_right steps first)
    | some (.error e, last) =>
      rw [hlast] at hrest
      obtain ⟨second, hsecond⟩ := hrest
      exact ⟨second + first, (hfirst second).trans hsecond⟩
    | some (.ok y, last) =>
      rw [hlast] at hrest
      obtain ⟨second, hsecond⟩ := hrest
      refine ⟨second + first, fun fuel => ?_⟩
      rw [← Nat.add_assoc, hfirst, hsecond]

end Performs

/-- The machine leaves a block as the recursion does. -/
theorem performs_leave {go : Frame → Execution Float} {frame : Frame} (hpending : frame.pending = [])
    (hgo : ∀ next, Performs m p steps (.running ⟨next, callers⟩) callers (go next)) :
    Performs m p (steps + 1) (.running ⟨frame, callers⟩) callers (do
      match ← attempt (leave frame) with
      | .inl next => go next
      | .inr x => return x) := by
  refine Performs.of_step ?_ (step_terminator hpending)
  unfold stepTerminator leave
  cases frame.block.terminator with
  | none => exact Performs.throw _
  | some terminator =>
    cases terminator with
    | branch target => exact Performs.goOn_inl hgo
    | branchIf condition consequent alternative =>
      simp only [← bind_assoc]
      exact Performs.goOn_inl hgo
    | ret value =>
      dsimp only
      cases frame.number value with
      | error e => exact Performs.throw e
      | ok x => exact Performs.pure x

/-- The machine executes an instruction as the recursion does, if it follows the invocation that a
call begins. -/
theorem performs_perform {go : Frame → Execution Float} {frame : Frame}
    {instruction : Ssa.Instruction} {pending : List Ssa.Instruction} {more : Nat}
    (hpending : frame.pending = instruction :: pending) (hdepth : callers.length = depth)
    (hcall : ∀ callee values inner, m.enter p (depth + 1) callee values = .ok (.invoked inner) →
      ∀ waiting : List Suspended, waiting.length = depth + 1 →
        Performs m p more (.running ⟨inner, waiting⟩) waiting
          (execute (invoke m p more (depth + 1 + 1)) more inner))
    (hle : steps ≤ more)
    (hgo : ∀ next, Performs m p steps (.running ⟨next, callers⟩) callers (go next)) :
    Performs m p (steps + 1) (.running ⟨frame, callers⟩) callers
      (perform (invoke m p more (depth + 1)) { frame with pending := pending } instruction >>= go) := by
  cases instruction with
  | assign target operation =>
    simp only [perform, ← attempt_bind]
    exact (Performs.goOn hgo).of_step (step_assign hpending)
  | store slot v =>
    simp only [perform, ← attempt_bind]
    exact (Performs.goOn hgo).of_step (step_store hpending)
  | call target callee arguments =>
    have hstep := @step_call m p frame pending callers target callee arguments hpending
    unfold stepCall at hstep
    simp only [perform, bind_assoc]
    cases hvalues : arguments.mapM ({ frame with pending := pending } : Frame).number with
    | error e =>
      simp only [hvalues] at hstep
      exact (Performs.throw e).of_step hstep
    | ok values =>
      simp only [hvalues, hdepth] at hstep
      rw [attempt_ok, pure_bind, invoke_eq]
      cases henter : m.enter p (depth + 1) callee values with
      | error e =>
        simp only [henter] at hstep
        exact (Performs.throw e).of_step hstep
      | ok entry =>
        simp only [henter] at hstep
        cases entry with
        | returned value call => exact (Performs.goOn hgo).of_native hstep
        | invoked inner =>
          have hinner := hcall callee values inner henter
            (⟨{ frame with pending := pending }, target⟩ :: callers) (congrArg Nat.succ hdepth)
          exact (hinner.bind hle fun x => Performs.goOn hgo).of_step hstep

/-- If the machine follows the invocations inside one more call, it follows this one. The induction
is on the steps that the invocation is given; a callee is given all of them. -/
theorem performs_body {more : Nat}
    (hcall : ∀ callee values inner, m.enter p (depth + 1) callee values = .ok (.invoked inner) →
      ∀ waiting : List Suspended, waiting.length = depth + 1 →
        Performs m p more (.running ⟨inner, waiting⟩) waiting
          (execute (invoke m p more (depth + 1 + 1)) more inner))
    (hdepth : callers.length = depth) (hle : steps ≤ more) (frame : Frame) :
    Performs m p steps (.running ⟨frame, callers⟩) callers
      (execute (invoke m p more (depth + 1)) steps frame) := by
  induction steps generalizing frame with
  | zero => exact fun natives => rfl
  | succ steps ih =>
    have hle := Nat.le_of_succ_le hle
    rw [execute]
    cases hpending : frame.pending with
    | nil => exact performs_leave hpending (ih hle)
    | cons instruction pending => exact performs_perform hpending hdepth hcall hle (ih hle)

/-- The machine follows any invocation. The induction is on how much deeper calls may be nested. -/
theorem performs_execute {room : Nat} (hroom : m.limit ≤ depth + 1 + room)
    (hdepth : callers.length = depth) (frame : Frame) :
    Performs m p steps (.running ⟨frame, callers⟩) callers
      (execute (invoke m p steps (depth + 1)) steps frame) := by
  induction room generalizing depth callers frame with
  | zero =>
    refine performs_body (fun callee values inner henter => ?_) hdepth (Nat.le_refl steps) frame
    rw [enter, if_pos hroom] at henter
    cases henter
  | succ room ih =>
    refine performs_body (fun callee values inner _ waiting hwaiting => ?_) hdepth
      (Nat.le_refl steps) frame
    exact ih (by omega) hwaiting inner

/-- What a call comes to by recursion, it comes to on the machine; and if the steps do not suffice
for the recursion, neither do they for the machine. -/
theorem call_of_recursion (m : Machine) (p : Program) (steps : Nat) (name : String)
    (arguments : List Float) :
    match m.callByRecursion p steps name arguments with
    | none => m.call p steps name arguments = none
    | some run => ∃ fuel, m.call p fuel name arguments = some run := by
  unfold callByRecursion call
  rw [invoke_eq]
  cases henter : m.enter p 0 name arguments with
  | error e => exact ⟨0, rfl⟩
  | ok entry =>
    cases entry with
    | returned value call => exact ⟨0, rfl⟩
    | invoked frame =>
      have hperforms : Performs m p steps (.running ⟨frame, []⟩) []
          (execute (invoke m p steps (0 + 1)) steps frame) :=
        performs_execute (Nat.le_add_left m.limit (0 + 1)) rfl frame
      have hfollows := hperforms []
      dsimp only
      match hrun : (execute (invoke m p steps (0 + 1)) steps frame).run.run [] with
      | none =>
        rw [hrun] at hfollows
        exact hfollows
      | some (.error e, after) =>
        rw [hrun] at hfollows
        exact hfollows
      | some (.ok x, after) =>
        rw [hrun] at hfollows
        obtain ⟨more, hmore⟩ := hfollows
        exact ⟨0 + more, hmore 0⟩

/-- A call comes to the same on the machine as by recursion: if one of them comes to an end, so does
the other one, with the same result and the same calls of native functions. -/
theorem exists_call_iff (m : Machine) (p : Program) (name : String) (arguments : List Float)
    (run : Run) :
    (∃ fuel, m.call p fuel name arguments = some run) ↔
      ∃ steps, m.callByRecursion p steps name arguments = some run := by
  constructor
  · rintro ⟨fuel, hcall⟩
    have hrecursion := call_of_recursion m p fuel name arguments
    cases hrun : m.callByRecursion p fuel name arguments with
    | none =>
      rw [hrun, hcall] at hrecursion
      cases hrecursion
    | some run' =>
      rw [hrun] at hrecursion
      obtain ⟨fuel', hcall'⟩ := hrecursion
      rw [call_unique hcall hcall']
      exact ⟨fuel, hrun⟩
  · rintro ⟨steps, hrun⟩
    have hrecursion := call_of_recursion m p steps name arguments
    rw [hrun] at hrecursion
    exact hrecursion

end Kaleidoscope.Machine
