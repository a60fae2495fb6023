import Kaleidoscope.Proofs.Machine.Faultless
import Kaleidoscope.Proofs.Machine.Waiting

/-!
# How deeply calls are nested

The machine looks at its limit nowhere but where a call begins, and it fails there if the call would
be nested too deeply. So a call under a limit is the call without one, up to the first point where
another call begins as deep as the limit, and the number of invocations at a time never exceeds the
limit.
-/

namespace Kaleidoscope.Machine

open Ssa (BlockId Operation Program SlotId ValueId)

namespace Frame

variable {α β : Type} {f : Frame}

/-- A failure is a fault of the code. -/
def Faults (result : Except RuntimeError α) : Prop := ∀ e, result = .error e → e.IsMalformed

/-- A value is no failure. -/
theorem faults_ok (a : α) : Faults (.ok a) := nofun

/-- A fault that is reported is one. -/
theorem faults_fault (fault : Fault) : Faults (f.fault fault : Except RuntimeError α) := by
  rintro _ ⟨⟩
  trivial

/-- A computation fails by faults only if both of its parts do. -/
theorem Faults.bind {result : Except RuntimeError α} {next : α → Except RuntimeError β}
    (h : Faults result) (hnext : ∀ a, Faults (next a)) : Faults (result >>= next) := by
  cases result with
  | error e =>
    rintro _ ⟨⟩
    exact h e rfl
  | ok a => exact hnext a

/-- Reading a register fails by faults only. -/
theorem faults_value (v : ValueId) : Faults (f.value v) := by
  unfold value
  split
  · exact faults_ok _
  · exact faults_fault _

/-- Reading a number fails by faults only. -/
theorem faults_number (v : ValueId) : Faults (f.number v) := by
  refine (faults_value v).bind fun x => ?_
  split
  · exact faults_ok _
  · exact faults_fault _

/-- Reading a truth value fails by faults only. -/
theorem faults_truth (v : ValueId) : Faults (f.truth v) := by
  refine (faults_value v).bind fun x => ?_
  split
  · exact faults_ok _
  · exact faults_fault _

/-- Writing a register fails by faults only. -/
theorem faults_assign (v : ValueId) (x : Value) : Faults (f.assign v x) := by
  unfold assign
  split
  · exact faults_ok _
  · exact faults_fault _

/-- Reading a slot fails by faults only. -/
theorem faults_load (slot : SlotId) : Faults (f.load slot) := by
  unfold load
  split
  · exact faults_ok _
  · exact faults_fault _

/-- Writing a slot fails by faults only. -/
theorem faults_store (slot : SlotId) (x : Float) : Faults (f.store slot x) := by
  unfold store
  split
  · exact faults_ok _
  · exact faults_fault _

/-- An operation fails by faults only. -/
theorem faults_evaluate (operation : Operation) : Faults (f.evaluate operation) := by
  cases operation with
  | constant x => exact faults_ok _
  | arithmetic op left right =>
    exact (faults_number left).bind fun _ => (faults_number right).bind fun _ => faults_ok _
  | compare op left right =>
    exact (faults_number left).bind fun _ => (faults_number right).bind fun _ => faults_ok _
  | widen v => exact (faults_truth v).bind fun _ => faults_ok _
  | load slot => exact (faults_load slot).bind fun _ => faults_ok _
  | phi incoming =>
    simp only [evaluate]
    split
    · exact faults_value _
    · exact faults_fault _

/-- Going to a block fails by faults only. -/
theorem faults_moveTo (target : BlockId) : Faults (f.moveTo target) := by
  unfold moveTo
  split
  · exact faults_fault _
  · exact faults_ok _

/-- Reading several numbers fails by faults only. -/
theorem faults_mapM_number (vs : List ValueId) : Faults (vs.mapM f.number) := by
  induction vs with
  | nil => exact faults_ok _
  | cons first rest ih =>
    rw [List.mapM_cons]
    exact (faults_number first).bind fun _ => ih.bind fun _ => faults_ok _

/-- A body that cannot be started is at fault. -/
theorem faults_start (name : String) (body : Ssa.Body) (arguments : List Float) :
    Faults (start name body arguments) := by
  unfold start
  split
  · rintro _ ⟨⟩
    trivial
  · exact faults_ok _

end Frame

variable {m : Machine} {p : Program} {name : String} {arguments : List Float} {fuel : Nat}
  {state next : State} {native : Option NativeCall} {natives : List NativeCall}

/-- The machine with another limit. -/
def limitedTo (m : Machine) (limit : Nat) : Machine := { m with limit := limit }

/-- Begin a call, however deeply it is nested. -/
def enterFreely (m : Machine) (p : Program) (name : String) (arguments : List Float) :
    Except RuntimeError Entry := (m.limitedTo 1).enter p 0 name arguments

/-- The number of invocations, which is how deeply a call is nested that begins here. -/
def State.depth (state : State) : Nat := state.callers.length + 1

/-- A step without a limit: the limit lies above the call that may begin here. -/
def stepFreely (m : Machine) (p : Program) (state : State) : Step :=
  (m.limitedTo (state.depth + 1)).step p state

/-- The state after so many steps without a limit, with all native calls so far, the last one first.
Nothing is left if the run has ended by then. -/
def runFreely (m : Machine) (p : Program) : Nat → State → List NativeCall →
    Option (State × List NativeCall)
  | 0, state, natives => some (state, natives)
  | steps + 1, state, natives =>
    match m.stepFreely p state with
    | ⟨.running next, native⟩ => runFreely m p steps next (native.toList ++ natives)
    | ⟨.finished _, _⟩ => none

/-- The next thing to be done is a call of some function, which need not exist. -/
def State.Calls (state : State) : Prop :=
  ∃ target callee arguments pending values,
    state.frame.pending = .call target callee arguments :: pending ∧
      arguments.mapM ({ state.frame with pending := pending } : Frame).number = .ok values

/-- `Attempts m p name arguments depth point natives`: when the function is called without a limit,
a call is attempted at this point, nested inside `depth` others, and these native calls come before
it. The call of the function itself is the first point; behind it, every step is one. -/
inductive Attempts (m : Machine) (p : Program) (name : String) (arguments : List Float) :
    Nat → Nat → List NativeCall → Prop where
  | itself : Attempts m p name arguments 0 0 []
  | inside {frame : Frame} {steps : Nat} {state : State} {natives : List NativeCall} :
      m.enterFreely p name arguments = .ok (.invoked frame) →
      m.runFreely p steps ⟨frame, []⟩ [] = some (state, natives) → state.Calls →
      Attempts m p name arguments state.depth (steps + 1) natives.reverse

/-- Apart from its depth, a call begins as without a limit. -/
theorem enter_eq (m : Machine) (p : Program) (depth : Nat) (name : String) (arguments : List Float) :
    m.enter p depth name arguments =
      if m.limit ≤ depth then .error (.callDepth m.limit) else m.enterFreely p name arguments := by
  rw [enterFreely, enter, enter, if_neg (show ¬ (m.limitedTo 1).limit ≤ 0 from Nat.not_succ_le_zero 0)]
  rfl

/-- A call that begins without a limit does not fail for its depth. -/
theorem enterFreely_ne (limit : Nat) :
    m.enterFreely p name arguments ≠ .error (.callDepth limit) := by
  intro h
  rw [enterFreely, enter, if_neg (show ¬ (m.limitedTo 1).limit ≤ 0 from Nat.not_succ_le_zero 0)] at h
  split at h
  · rename_i arity body _
    unfold checkArity at h
    split at h
    · cases hstart : Frame.start name body arguments with
      | error e =>
        rw [hstart] at h
        cases h
        exact Frame.faults_start name body arguments _ hstart
      | ok frame =>
        rw [hstart] at h
        cases h
    · cases h
  · split at h
    · cases h
    · unfold checkArity at h
      split at h
      · cases h
      · cases h

/-- Where no call begins the limit is not looked at. -/
theorem step_of_not_calls (h : ¬ state.Calls) : m.step p state = m.stepFreely p state := by
  obtain ⟨frame, callers⟩ := state
  unfold stepFreely
  cases hpending : frame.pending with
  | nil => rw [step_terminator hpending, step_terminator hpending]
  | cons instruction pending =>
    cases instruction with
    | assign target operation => rw [step_assign hpending, step_assign hpending]
    | store slot v => rw [step_store hpending, step_store hpending]
    | call target callee arguments =>
      rw [step_call hpending, step_call hpending, stepCall, stepCall]
      cases hvalues : arguments.mapM ({ frame with pending := pending } : Frame).number with
      | error e => rfl
      | ok values => exact (h ⟨target, callee, arguments, pending, values, hpending, hvalues⟩).elim

/-- A call that is not nested too deeply begins as without a limit. -/
theorem step_of_depth_lt (h : state.depth < m.limit) : m.step p state = m.stepFreely p state := by
  obtain ⟨frame, callers⟩ := state
  by_cases hcalls : State.Calls ⟨frame, callers⟩
  · obtain ⟨target, callee, arguments, pending, values, hpending, hvalues⟩ := hcalls
    unfold stepFreely
    rw [step_call hpending, step_call hpending, stepCall, stepCall, hvalues]
    dsimp only
    have hlimit : ¬ m.limit ≤ callers.length + 1 := Nat.not_le.2 h
    have hfree : ¬ (m.limitedTo (State.depth ⟨frame, callers⟩ + 1)).limit ≤ callers.length + 1 :=
      Nat.not_succ_le_self _
    rw [enter_eq, enter_eq, if_neg hlimit, if_neg hfree]
    rfl
  · exact step_of_not_calls hcalls

/-- A call that is nested too deeply fails before anything else is done. -/
theorem step_of_calls (hcalls : state.Calls) (h : m.limit ≤ state.depth) :
    m.step p state = ⟨.finished (.error (.callDepth m.limit)), none⟩ := by
  obtain ⟨frame, callers⟩ := state
  obtain ⟨target, callee, arguments, pending, values, hpending, hvalues⟩ := hcalls
  rw [step_call hpending, stepCall, hvalues]
  dsimp only
  rw [enter_eq, if_pos (show m.limit ≤ callers.length + 1 from h)]

/-- A step that begins no call leaves no more invocations than there were. -/
theorem calls_of_depth_lt (hstep : m.step p state = ⟨.running next, native⟩)
    (h : state.depth < next.depth) : state.Calls := by
  obtain ⟨frame, callers⟩ := state
  have hmore : callers.length < next.callers.length := Nat.lt_of_succ_lt_succ h
  have hgoOn {result : Except RuntimeError Frame} :
      Status.goOn callers result ≠ .running next := by
    intro hnext
    obtain ⟨frame, -, rfl⟩ := exists_of_goOn hnext
    exact Nat.lt_irrefl _ hmore
  cases hpending : frame.pending with
  | nil =>
    rw [step_terminator hpending] at hstep
    rcases callers_of_stepTerminator (congrArg Step.status hstep) with heq | ⟨caller, x, heq, -⟩
    · exact (Nat.ne_of_gt hmore (congrArg List.length heq)).elim
    · rw [heq, List.length_cons] at hmore
      omega
  | cons instruction pending =>
    cases instruction with
    | assign target operation =>
      rw [step_assign hpending] at hstep
      exact (hgoOn (congrArg Step.status hstep)).elim
    | store slot v =>
      rw [step_store hpending] at hstep
      exact (hgoOn (congrArg Step.status hstep)).elim
    | call target callee arguments =>
      rw [step_call hpending, stepCall] at hstep
      cases hvalues : arguments.mapM ({ frame with pending := pending } : Frame).number with
      | error e =>
        rw [hvalues] at hstep
        cases hstep
      | ok values => exact ⟨target, callee, arguments, pending, values, hpending, hvalues⟩

/-- The number of invocations stays within the limit. -/
theorem depth_le_of_step (h : state.depth ≤ m.limit)
    (hstep : m.step p state = ⟨.running next, native⟩) : next.depth ≤ m.limit := by
  by_cases hmore : state.depth < next.depth
  · have hlt : state.depth < m.limit := by
      by_contra hlimit
      rw [step_of_calls (calls_of_depth_lt hstep hmore) (Nat.not_lt.1 hlimit)] at hstep
      cases hstep
    have hgrown : next.depth ≤ state.depth + 1 := by
      obtain ⟨frame, callers⟩ := state
      unfold State.depth
      rcases callers_of_step hstep with heq | ⟨caller, heq⟩ | ⟨caller, x, heq, -⟩
      · rw [heq]
        exact Nat.le_succ _
      · rw [heq]
        exact Nat.le_refl _
      · have hlength := congrArg List.length heq
        rw [List.length_cons] at hlength
        dsimp only
        omega
    omega
  · omega

/-- The run does not end because a call is nested too deeply. -/
def Status.Shallow (status : Status) : Prop := ∀ limit, status ≠ .finished (.error (.callDepth limit))

/-- A run that ends by a fault is not cut short. -/
theorem shallow_error {e : RuntimeError} (h : e.IsMalformed) :
    Status.Shallow (.finished (.error e)) := by
  rintro limit ⟨⟩
  exact h

/-- Going on with a result that fails by faults only does not cut the run short. -/
theorem shallow_goOn {result : Except RuntimeError Frame} (h : Frame.Faults result)
    (callers : List Suspended) : Status.Shallow (.goOn callers result) := by
  cases result with
  | error e => exact shallow_error (h e rfl)
  | ok frame => exact nofun

/-- Giving a value back does not cut the run short. -/
theorem shallow_giveBack (x : Float) (callers : List Suspended) :
    Status.Shallow (.giveBack x callers) := by
  cases callers with
  | nil => exact nofun
  | cons caller callers => exact shallow_goOn (Frame.faults_assign _ _) callers

/-- Leaving a block does not cut the run short. -/
theorem shallow_stepTerminator (frame : Frame) (callers : List Suspended) :
    Status.Shallow (stepTerminator frame callers) := by
  unfold stepTerminator
  split
  · exact shallow_error trivial
  · exact shallow_goOn (Frame.faults_moveTo _) callers
  · exact shallow_goOn ((Frame.faults_truth _).bind fun _ => Frame.faults_moveTo _) callers
  · split
    · rename_i e he
      exact shallow_error (Frame.faults_number _ e he)
    · exact shallow_giveBack _ callers

/-- Without a limit a step does not fail for the depth of a call. -/
theorem shallow_stepFreely (m : Machine) (p : Program) (state : State) :
    (m.stepFreely p state).status.Shallow := by
  obtain ⟨frame, callers⟩ := state
  unfold stepFreely
  cases hpending : frame.pending with
  | nil =>
    rw [step_terminator hpending]
    exact shallow_stepTerminator frame callers
  | cons instruction pending =>
    cases instruction with
    | assign target operation =>
      rw [step_assign hpending]
      exact shallow_goOn ((Frame.faults_evaluate _).bind fun _ => Frame.faults_assign _ _) callers
    | store slot v =>
      rw [step_store hpending]
      exact shallow_goOn ((Frame.faults_number _).bind fun _ => Frame.faults_store _ _) callers
    | call target callee arguments =>
      have hfree : ¬ (m.limitedTo (State.depth ⟨frame, callers⟩ + 1)).limit ≤ callers.length + 1 :=
        Nat.not_succ_le_self _
      rw [step_call hpending, stepCall]
      cases hvalues : arguments.mapM ({ frame with pending := pending } : Frame).number with
      | error e => exact shallow_error (Frame.faults_mapM_number _ e hvalues)
      | ok values =>
        dsimp only
        rw [enter_eq, if_neg hfree]
        cases hentry : (m.limitedTo (State.depth ⟨frame, callers⟩ + 1)).enterFreely p callee values with
        | error e =>
          rintro limit ⟨⟩
          exact enterFreely_ne limit hentry
        | ok entry =>
          cases entry with
          | returned x call => exact shallow_goOn (Frame.faults_assign _ _) callers
          | invoked callee => rintro limit ⟨⟩

/-- A call that is nested too deeply is the next thing to be done. -/
def State.Cut (limit : Nat) (state : State) : Prop := state.Calls ∧ state.depth = limit

/-- Within the limit, a step is taken as without it, unless a call is next that is nested too
deeply. -/
theorem step_of_not_cut (h : state.depth ≤ m.limit) (hcut : ¬ state.Cut m.limit) :
    m.step p state = m.stepFreely p state := by
  rcases Nat.lt_or_eq_of_le h with hlt | heq
  · exact step_of_depth_lt hlt
  · exact step_of_not_calls fun hcalls => hcut ⟨hcalls, heq⟩

/-- A call that is nested too deeply is refused. -/
theorem step_of_cut (hcut : state.Cut m.limit) :
    m.step p state = ⟨.finished (.error (.callDepth m.limit)), none⟩ :=
  step_of_calls hcut.1 (Nat.le_of_eq hcut.2.symm)

/-- At every moment of a run there are no more invocations than the limit allows. -/
theorem depth_le_of_stateAfter {steps : Nat} {last : State} (h : state.depth ≤ m.limit)
    (hafter : m.stateAfter p steps state = some last) : last.depth ≤ m.limit := by
  induction steps generalizing state with
  | zero =>
    obtain rfl := Option.some.inj hafter
    exact h
  | succ steps ih =>
    rw [stateAfter] at hafter
    rcases hstep : m.step p state with ⟨status, native⟩
    rw [hstep] at hafter
    cases status with
    | finished result => cases hafter
    | running next => exact ih (depth_le_of_step h hstep) hafter

/-- A run that is not cut short is the same under a higher limit. -/
theorem runFrom_limitedTo {limit : Nat} {run : Run} (hlimit : m.limit ≤ limit)
    (h : state.depth ≤ m.limit) (hrun : m.runFrom p fuel state natives = some run)
    (hne : run.result ≠ .error (.callDepth m.limit)) :
    (m.limitedTo limit).runFrom p fuel state natives = some run := by
  induction fuel generalizing state natives with
  | zero => cases hrun
  | succ fuel ih =>
    by_cases hcut : state.Cut m.limit
    · rw [runFrom_succ_of_finished (step_of_cut hcut)] at hrun
      cases hrun
      exact (hne rfl).elim
    · -- The higher limit does not cut the run short here, either.
      have hstep : (m.limitedTo limit).step p state = m.step p state := by
        rw [step_of_not_cut h hcut]
        refine step_of_not_cut (Nat.le_trans h hlimit) fun hcut' => hcut ⟨hcut'.1, ?_⟩
        exact Nat.le_antisymm h (Nat.le_trans hlimit (Nat.le_of_eq hcut'.2.symm))
      rcases hown : m.step p state with ⟨status, native⟩
      rw [hown] at hstep
      cases status with
      | finished result =>
        rw [runFrom_succ_of_finished hown] at hrun
        rw [runFrom_succ_of_finished hstep]
        exact hrun
      | running next =>
        rw [runFrom_succ_of_running hown] at hrun
        rw [runFrom_succ_of_running hstep]
        exact ih (depth_le_of_step h hown) hrun

/-- A run that is cut short has come to a call that is nested too deeply, for the first time. -/
theorem exists_cut_of_runFrom {out : List NativeCall} (h : state.depth ≤ m.limit)
    (hrun : m.runFrom p fuel state natives = some ⟨.error (.callDepth m.limit), out⟩) :
    ∃ steps last before, m.runFreely p steps state natives = some (last, before) ∧
      last.Cut m.limit ∧ out = before.reverse ∧
      ∀ fewer < steps, ∀ earlier others,
        m.runFreely p fewer state natives = some (earlier, others) → ¬ earlier.Cut m.limit := by
  induction fuel generalizing state natives with
  | zero => cases hrun
  | succ fuel ih =>
    by_cases hcut : state.Cut m.limit
    · rw [runFrom_succ_of_finished (step_of_cut hcut)] at hrun
      cases hrun
      exact ⟨0, state, natives, rfl, hcut, rfl, fun fewer hlt => (Nat.not_lt_zero fewer hlt).elim⟩
    · have hfree := step_of_not_cut (p := p) h hcut
      rcases hstep : m.step p state with ⟨status, native⟩
      rw [hstep] at hfree
      cases status with
      | finished result =>
        -- The run ends here without a limit, too, and so for another reason.
        rw [runFrom_succ_of_finished hstep] at hrun
        cases hrun
        exact (shallow_stepFreely m p state _ (congrArg Step.status hfree.symm)).elim
      | running next =>
        rw [runFrom_succ_of_running hstep] at hrun
        obtain ⟨steps, last, before, hlast, hlastCut, hout, hfirst⟩ :=
          ih (depth_le_of_step h hstep) hrun
        have hshift (k : Nat) : m.runFreely p (k + 1) state natives =
            m.runFreely p k next (native.toList ++ natives) := by
          rw [runFreely, ← hfree]
        refine ⟨steps + 1, last, before, (hshift steps).trans hlast, hlastCut, hout, ?_⟩
        intro fewer hlt earlier others hearlier
        cases fewer with
        | zero =>
          obtain ⟨rfl, -⟩ := Prod.mk.inj (Option.some.inj hearlier)
          exact hcut
        | succ fewer =>
          rw [hshift] at hearlier
          exact hfirst fewer (Nat.lt_of_succ_lt_succ hlt) earlier others hearlier

/-- A run that comes to such a call without a limit is cut short under the limit. -/
theorem exists_runFrom_of_cut {steps : Nat} {last : State} {before : List NativeCall}
    (h : state.depth ≤ m.limit) (hlast : m.runFreely p steps state natives = some (last, before))
    (hcut : last.Cut m.limit) :
    ∃ fuel run, m.runFrom p fuel state natives = some run ∧
      run.result = .error (.callDepth m.limit) := by
  induction steps generalizing state natives with
  | zero =>
    obtain ⟨rfl, -⟩ := Prod.mk.inj (Option.some.inj hlast)
    exact ⟨1, _, runFrom_succ_of_finished (step_of_cut hcut) 0 natives, rfl⟩
  | succ steps ih =>
    by_cases hnow : state.Cut m.limit
    · exact ⟨1, _, runFrom_succ_of_finished (step_of_cut hnow) 0 natives, rfl⟩
    · have hfree := step_of_not_cut (p := p) h hnow
      rw [runFreely, ← hfree] at hlast
      rcases hstep : m.step p state with ⟨status, native⟩
      rw [hstep] at hlast
      cases status with
      | finished result => cases hlast
      | running next =>
        obtain ⟨fuel, run, hrun, hresult⟩ := ih (depth_le_of_step h hstep) hlast
        exact ⟨fuel + 1, run, (runFrom_succ_of_running hstep fuel natives).trans hrun, hresult⟩

/-- In its first state a call has one invocation, which the limit allows if the call could begin. -/
theorem limit_pos_of_enter {entry : Entry} (h : m.enter p 0 name arguments = .ok entry) :
    0 < m.limit := by
  by_contra hzero
  rw [enter_eq, if_pos (Nat.not_lt.1 hzero)] at h
  cases h

/-- No limit but zero keeps a call from outside from beginning. -/
theorem enter_eq_enterFreely (h : 0 < m.limit) :
    m.enter p 0 name arguments = m.enterFreely p name arguments := by
  rw [enter_eq, if_neg (Nat.not_le.2 h)]

/-- A call that is not cut short is the same under a higher limit. -/
theorem call_limitedTo {limit : Nat} {run : Run} (hlimit : m.limit ≤ limit)
    (hrun : m.call p fuel name arguments = some run)
    (hne : run.result ≠ .error (.callDepth m.limit)) :
    (m.limitedTo limit).call p fuel name arguments = some run := by
  by_cases hzero : m.limit ≤ 0
  · rw [call, enter_eq, if_pos hzero] at hrun
    cases hrun
    exact (hne rfl).elim
  · have hpos : 0 < m.limit := Nat.not_le.1 hzero
    have henter : (m.limitedTo limit).enter p 0 name arguments = m.enter p 0 name arguments := by
      rw [enter_eq_enterFreely hpos, enter_eq_enterFreely (Nat.lt_of_lt_of_le hpos hlimit)]
      rfl
    unfold call at hrun ⊢
    rw [henter]
    cases hentry : m.enter p 0 name arguments with
    | error e =>
      rw [hentry] at hrun
      exact hrun
    | ok entry =>
      rw [hentry] at hrun
      cases entry with
      | returned value call => exact hrun
      | invoked frame => exact runFrom_limitedTo hlimit hpos hrun hne

/-- A call that is cut short attempts one that is nested too deeply, and none before it. -/
theorem exists_attempts_of_call
    (h : m.call p fuel name arguments = some ⟨.error (.callDepth m.limit), natives⟩) :
    ∃ point, Attempts m p name arguments m.limit point natives ∧
      ∀ earlier < point, ∀ others, ¬ Attempts m p name arguments m.limit earlier others := by
  by_cases hzero : m.limit = 0
  · rw [call, enter_eq, if_pos (Nat.le_of_eq hzero)] at h
    cases h
    rw [hzero]
    exact ⟨0, .itself, fun earlier hlt => (Nat.not_lt_zero earlier hlt).elim⟩
  · have hpos : 0 < m.limit := Nat.pos_of_ne_zero hzero
    rw [call, enter_eq_enterFreely hpos] at h
    cases hentry : m.enterFreely p name arguments with
    | error e =>
      rw [hentry] at h
      cases h
      exact (enterFreely_ne _ hentry).elim
    | ok entry =>
      rw [hentry] at h
      cases entry with
      | returned value call => cases h
      | invoked frame =>
        have hdepth : State.depth ⟨frame, []⟩ ≤ m.limit := hpos
        obtain ⟨steps, last, before, hlast, hcut, rfl, hfirst⟩ := exists_cut_of_runFrom hdepth h
        refine ⟨steps + 1, hcut.2 ▸ .inside hentry hlast hcut.1, fun earlier hlt others hattempts => ?_⟩
        generalize hdepth : m.limit = depth at hattempts
        cases hattempts with
        | itself => exact hzero hdepth
        | @inside frame' fewer state before' hentry' hstate hcalls =>
          obtain rfl : frame = frame' := by
            rw [hentry] at hentry'
            cases hentry'
            rfl
          exact hfirst fewer (Nat.lt_of_succ_lt_succ hlt) state before' hstate ⟨hcalls, hdepth.symm⟩

/-- A call that attempts one that is nested too deeply is cut short. -/
theorem exists_call_of_attempts {point : Nat}
    (h : Attempts m p name arguments m.limit point natives) :
    ∃ fuel run, m.call p fuel name arguments = some run ∧
      run.result = .error (.callDepth m.limit) := by
  generalize hdepth : m.limit = depth at h
  cases h with
  | itself =>
    refine ⟨0, ⟨.error (.callDepth m.limit), []⟩, ?_, by rw [hdepth]⟩
    rw [call, enter_eq, if_pos (Nat.le_of_eq hdepth)]
  | @inside frame steps state before hentry hstate hcalls =>
    have hpos : 0 < m.limit := hdepth ▸ Nat.succ_pos _
    have hdepth' : State.depth ⟨frame, []⟩ ≤ m.limit := hpos
    obtain ⟨fuel, run, hrun, hresult⟩ :=
      exists_runFrom_of_cut hdepth' hstate ⟨hcalls, hdepth.symm⟩
    refine ⟨fuel, run, ?_, hdepth ▸ hresult⟩
    rw [call, enter_eq_enterFreely hpos, hentry]
    exact hrun

/-- The limit is exact and cuts runs short at most. At every moment of a call there are at most as
many invocations as the limit says. A call that ends otherwise than by its depth ends alike under
any higher limit, with the same calls of native functions. And a call fails by its depth exactly if
it attempts without a limit a call that is nested as deeply as the limit says; it fails at the first
such point, after the same native calls. -/
theorem call_cut_exactly (m : Machine) (p : Program) (name : String) (arguments : List Float) :
    (∀ frame steps state, m.enter p 0 name arguments = .ok (.invoked frame) →
      m.stateAfter p steps ⟨frame, []⟩ = some state → state.depth ≤ m.limit) ∧
    (∀ limit fuel run, m.limit ≤ limit → m.call p fuel name arguments = some run →
      (∀ cause, run.result ≠ .error (.callDepth cause)) →
      (m.limitedTo limit).call p fuel name arguments = some run) ∧
    ((∃ fuel run, m.call p fuel name arguments = some run ∧
        run.result = .error (.callDepth m.limit)) ↔
      ∃ point natives, Attempts m p name arguments m.limit point natives) ∧
    ∀ fuel natives, m.call p fuel name arguments = some ⟨.error (.callDepth m.limit), natives⟩ →
      ∃ point, Attempts m p name arguments m.limit point natives ∧
        ∀ earlier < point, ∀ others, ¬ Attempts m p name arguments m.limit earlier others := by
  refine ⟨fun frame steps state hentry => ?_, fun limit fuel run hlimit hrun hne => ?_, ⟨?_, ?_⟩,
    fun fuel natives => exists_attempts_of_call⟩
  · exact depth_le_of_stateAfter (limit_pos_of_enter hentry)
  · exact call_limitedTo hlimit hrun (hne m.limit)
  · rintro ⟨fuel, ⟨result, natives⟩, hrun, rfl⟩
    obtain ⟨point, hattempts, -⟩ := exists_attempts_of_call hrun
    exact ⟨point, natives, hattempts⟩
  · rintro ⟨point, natives, hattempts⟩
    exact exists_call_of_attempts hattempts

end Kaleidoscope.Machine
