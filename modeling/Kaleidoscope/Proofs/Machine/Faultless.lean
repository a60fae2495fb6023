import Kaleidoscope.Proofs.Machine.Registers
import Kaleidoscope.Proofs.Machine.Runs
import Kaleidoscope.Proofs.Ssa.Programs
import Kaleidoscope.Proofs.Ssa.Runnable

/-!
# Runs without a fault

A frame of a runnable body stands at the end of a path through the body. What has been passed on
this path is in its registers and slots, so whatever comes next can be executed, and the frame
stands where the path leads on to. A caller that waits is ready for any number that it may get back.
-/

namespace Kaleidoscope.Machine

open Ssa (Body BlockId Instruction Kind Operation Passed Path Program SlotId Terminator ValueId)

/-- The kind of a value. -/
def Value.kind : Value → Kind
  | number _ => .number
  | truth _ => .truth

/-- The code is at fault. -/
def RuntimeError.IsMalformed : RuntimeError → Prop
  | malformed .. => True
  | unresolved _ | arity .. | callDepth _ => False

namespace Frame

variable {arity : Nat} {typing : ValueId → Kind} {before : List BlockId} {l : Nat} {f : Frame}
  {v : ValueId} {x : Instruction} {rest : List Instruction}

/-- A register holds a value of the kind. -/
def Has (f : Frame) (v : ValueId) (kind : Kind) : Prop := ∃ x, f.Holds v x ∧ x.kind = kind

/-- A register of the kind of numbers holds a number. -/
theorem Has.exists_number (h : f.Has v .number) : ∃ x, f.Holds v (.number x) := by
  obtain ⟨x, hx, hkind⟩ := h
  cases x with
  | number x => exact ⟨x, hx⟩
  | truth b => cases hkind

/-- A register of the kind of truth values holds one. -/
theorem Has.exists_truth (h : f.Has v .truth) : ∃ b, f.Holds v (.truth b) := by
  obtain ⟨x, hx, hkind⟩ := h
  cases x with
  | number x => cases hkind
  | truth b => exact ⟨b, hx⟩

/-- The numbers in registers that hold numbers. -/
theorem exists_mapM_number_eq {arguments : List ValueId} (h : ∀ v ∈ arguments, f.Has v .number) :
    ∃ xs, arguments.mapM f.number = .ok xs := by
  suffices hxs : ∃ xs, List.Forall₂ (fun v x => f.Holds v (.number x)) arguments xs from
    hxs.imp fun _ => mapM_number_eq
  induction arguments with
  | nil => exact ⟨[], .nil⟩
  | cons first rest ih =>
    obtain ⟨hfirst, hrest⟩ := List.forall_mem_cons.1 h
    obtain ⟨x, hx⟩ := hfirst.exists_number
    obtain ⟨xs, hxs⟩ := ih hrest
    exact ⟨x :: xs, .cons hx hxs⟩

/-- Control has come through the blocks `before` to the place `l` of the current block of a runnable
body, and what it has passed is in registers and slots. -/
structure Stands (arity : Nat) (typing : ValueId → Kind) (before : List BlockId) (l : Nat)
    (f : Frame) : Prop where
  runnable : f.body.Runnable arity typing
  path : Path (Ssa.Edge f.body.blocks) (f.current :: before) f.current
  previous : f.previous = before.head?
  block : f.body.blocks[f.current.index]? = some f.block
  pending : f.pending = f.block.instructions.drop l
  registers : f.registers.size = f.body.valueCount
  slots : f.slots.size = f.body.slots.length
  parameters : ∀ v : ValueId, v.index < arity → f.Has v (typing v)
  values : ∀ v, Passed f.body.blocks (Instruction.Computes v) before f.current l → f.Has v (typing v)
  stores : ∀ slot, Passed f.body.blocks (Instruction.Stores slot) before f.current l →
    ∃ x, f.slots[slot.index]? = some (some x)

/-- The frame can go on. -/
def Ready (f : Frame) : Prop := ∃ arity typing before l, f.Stands arity typing before l

/-- What is defined where the frame stands is in a register. -/
theorem Stands.has (h : f.Stands arity typing before l)
    (hdefined : Ssa.Defined arity f.body.blocks v f.current l) : f.Has v (typing v) :=
  hdefined.elim (h.parameters v) fun hinevitable => h.values v (hinevitable before h.path)

/-- A frame without pending instructions has passed all of its block. -/
theorem Stands.endOf_le (h : f.Stands arity typing before l) (hpending : f.pending = []) :
    Ssa.endOf f.body.blocks f.current ≤ l := by
  rw [h.pending, List.drop_eq_nil_iff] at hpending
  rw [Ssa.endOf, h.block]
  exact hpending

/-- What is defined at the end of the block is then in a register. -/
theorem Stands.has_of_end (h : f.Stands arity typing before l) (hpending : f.pending = [])
    (hdefined : Ssa.Defined arity f.body.blocks v f.current (Ssa.endOf f.body.blocks f.current)) :
    f.Has v (typing v) :=
  hdefined.elim (h.parameters v) fun hinevitable =>
    h.values v ((hinevitable before h.path).mono (h.endOf_le hpending))

/-- The first pending instruction is the one at the place. -/
theorem Stands.next (h : f.Stands arity typing before l) (hpending : f.pending = x :: rest) :
    Ssa.instructionAt? f.body.blocks f.current l = some x ∧
      rest = f.block.instructions.drop (l + 1) := by
  rw [h.pending] at hpending
  have hlt : l < f.block.instructions.length := by
    rw [← Nat.not_le, ← List.drop_eq_nil_iff, hpending]
    exact List.cons_ne_nil x rest
  rw [List.drop_eq_getElem_cons hlt] at hpending
  obtain ⟨rfl, rfl⟩ := List.cons.inj hpending
  rw [Ssa.instructionAt?, h.block]
  exact ⟨List.getElem?_eq_getElem hlt, rfl⟩

/-- The instruction that is executed next can be executed. -/
theorem Stands.executable (h : f.Stands arity typing before l) (hpending : f.pending = x :: rest) :
    x.Executable arity f.body.valueCount f.body.slots.length typing f.body.blocks f.current l :=
  h.runnable.instructions (h.next hpending).1

/-- Its operands are in registers. -/
theorem Stands.has_operand (h : f.Stands arity typing before l) (hpending : f.pending = x :: rest)
    {kind : Kind} (hmem : (v, kind) ∈ x.operands) (hkind : typing v = kind) : f.Has v kind :=
  hkind ▸ h.has ((h.executable hpending).operands (v, kind) hmem)

/-- The frame stands behind the next instruction once what this computes or stores has been
added. -/
theorem Stands.behind (h : f.Stands arity typing before l) (hpending : f.pending = x :: rest)
    {registers : Array (Option Value)} {slots : Array (Option Float)}
    (hregisters : registers.size = f.registers.size) (hslots : slots.size = f.slots.size)
    (hvalues : ∀ v, f.Has v (typing v) ∨ x.Computes v →
      ({ f with pending := rest, registers := registers, slots := slots } : Frame).Has v (typing v))
    (hstores : ∀ slot : SlotId, (∃ y, f.slots[slot.index]? = some (some y)) ∨ x.Stores slot →
      ∃ y, slots[slot.index]? = some (some y)) :
    ({ f with pending := rest, registers := registers, slots := slots } : Frame).Stands arity typing
      before (l + 1) := by
  obtain ⟨hx, hrest⟩ := h.next hpending
  constructor
  case runnable => exact h.runnable
  case path => exact h.path
  case previous => exact h.previous
  case block => exact h.block
  case pending => exact hrest
  case registers => exact hregisters.trans h.registers
  case slots => exact hslots.trans h.slots
  case parameters => exact fun v hv => hvalues v (.inl (h.parameters v hv))
  case values => exact fun v hpassed => hvalues v ((hpassed.of_succ hx).imp_left (h.values v))
  case stores => exact fun slot hpassed => hstores slot ((hpassed.of_succ hx).imp_left (h.stores slot))

/-- A value of the right kind that is assigned by the next instruction leads behind the
instruction. -/
theorem Stands.assign (h : f.Stands arity typing before l) (hpending : f.pending = x :: rest)
    {target : ValueId} (hcomputes : x.Computes target) {value : Value}
    (hvalue : value.kind = typing target) :
    ∃ next, ({ f with pending := rest } : Frame).assign target value = .ok next ∧
      next.Stands arity typing before (l + 1) := by
  have hlt : target.index < f.registers.size := by
    rw [h.registers]
    exact (h.executable hpending).result target hcomputes
  have hset := holds_set (f := { f with pending := rest }) hlt value
  refine ⟨_, assign_eq (f := { f with pending := rest }) hlt value,
    h.behind hpending (Array.size_set hlt) rfl (fun v hv => ?_) fun slot hslot => ?_⟩
  · by_cases heq : target.index = v.index
    · obtain rfl : target = v := congrArg ValueId.mk heq
      exact ⟨value, hset, hvalue⟩
    · -- Any other register is not computed here, and it holds what it held.
      have hnot : ¬ x.Computes v := fun hcomputes' =>
        heq (congrArg ValueId.index (Option.some.inj (hcomputes.symm.trans hcomputes')))
      obtain ⟨y, hy, hkind⟩ := hv.resolve_right hnot
      exact ⟨y, (Array.getElem?_set_ne hlt heq).trans hy, hkind⟩
  · refine hslot.resolve_right ?_
    rintro ⟨v, rfl⟩
    cases hcomputes

/-- The same for a number that is stored. -/
theorem Stands.store (h : f.Stands arity typing before l) {slot : SlotId}
    (hpending : f.pending = .store slot v :: rest) :
    ∃ next, (({ f with pending := rest } : Frame).number v >>=
        ({ f with pending := rest } : Frame).store slot) = .ok next ∧
      next.Stands arity typing before (l + 1) := by
  have hexecutable := h.executable hpending
  have hlt : slot.index < f.slots.size := by
    rw [h.slots]
    exact hexecutable.slot slot ⟨v, rfl⟩
  obtain ⟨y, hy⟩ := (h.has_operand hpending List.mem_cons_self hexecutable.typed).exists_number
  have hnumber : ({ f with pending := rest } : Frame).number v = .ok y :=
    (hy.congr (g := { f with pending := rest }) rfl).number_eq
  refine ⟨{ f with pending := rest, slots := f.slots.set slot.index (some y) hlt }, ?_,
    h.behind hpending rfl (Array.size_set hlt) (fun w hw => ?_) fun other hother => ?_⟩
  · rw [hnumber]
    exact dif_pos hlt
  · exact hw.resolve_right fun hcomputes => by cases hcomputes
  · by_cases heq : slot.index = other.index
    · exact ⟨y, by simp [← heq]⟩
    · have hnot : ¬ (Instruction.store slot v).Stores other := by
        rintro ⟨w, hw⟩
        cases hw
        exact heq rfl
      obtain ⟨z, hz⟩ := hother.resolve_right hnot
      exact ⟨z, (Array.getElem?_set_ne hlt heq).trans hz⟩

/-- The phi that is executed next finds its alternative, of the kind of its result. -/
theorem Stands.evaluate_phi (h : f.Stands arity typing before l) {incoming : List (ValueId × BlockId)}
    {target : Kind} (htyped : (Operation.phi incoming).Typed typing target)
    (hphi : Ssa.Chooses arity f.body.blocks incoming f.current) :
    ∃ value, f.evaluate (.phi incoming) = .ok value ∧ value.kind = target := by
  obtain ⟨hentry, hchoice⟩ := hphi
  obtain ⟨i, earlier, rfl, hpath, hedge⟩ := h.path.exists_predecessor hentry
  obtain ⟨alternative, hfind, hdefined⟩ := hchoice i hedge
  have hhas : f.Has alternative.1 (typing alternative.1) := by
    refine hdefined.elim (h.parameters _) fun hinevitable => h.values _ ?_
    exact (hinevitable earlier hpath).enter f.current
  obtain ⟨value, hvalue, hkind⟩ := hhas
  refine ⟨value, ?_, hkind.trans (htyped alternative (List.mem_of_find?_eq_some hfind))⟩
  have hprevious : f.previous = some i := h.previous
  simp only [evaluate, hprevious, Option.some.injEq, hfind]
  exact hvalue.value_eq

/-- The operation that is executed next has a value of the kind of its result. -/
theorem Stands.evaluate (h : f.Stands arity typing before l) {target : ValueId} {operation : Operation}
    (hpending : f.pending = .assign target operation :: rest) :
    ∃ value, f.evaluate operation = .ok value ∧ value.kind = typing target := by
  have hexecutable := h.executable hpending
  have htyped : operation.Typed typing (typing target) := hexecutable.typed
  cases operation with
  | constant x => exact ⟨.number x, rfl, htyped.symm⟩
  | arithmetic op left right =>
    obtain ⟨hleft, hright, htarget⟩ := htyped
    obtain ⟨x, hx⟩ := (h.has_operand hpending List.mem_cons_self hleft).exists_number
    obtain ⟨y, hy⟩ :=
      (h.has_operand hpending (List.mem_cons_of_mem _ List.mem_cons_self) hright).exists_number
    exact ⟨_, evaluate_arithmetic hx hy op, htarget.symm⟩
  | compare op left right =>
    obtain ⟨hleft, hright, htarget⟩ := htyped
    obtain ⟨x, hx⟩ := (h.has_operand hpending List.mem_cons_self hleft).exists_number
    obtain ⟨y, hy⟩ :=
      (h.has_operand hpending (List.mem_cons_of_mem _ List.mem_cons_self) hright).exists_number
    exact ⟨_, evaluate_compare hx hy op, htarget.symm⟩
  | widen v =>
    obtain ⟨hv, htarget⟩ := htyped
    obtain ⟨b, hb⟩ := (h.has_operand hpending List.mem_cons_self hv).exists_truth
    exact ⟨_, evaluate_widen hb, htarget.symm⟩
  | load slot =>
    obtain ⟨x, hx⟩ := h.stores slot (hexecutable.load target slot rfl before h.path)
    refine ⟨.number x, ?_, htyped.symm⟩
    simp only [Frame.evaluate, Frame.load, hx]
    rfl
  | phi incoming => exact h.evaluate_phi htyped (hexecutable.phi target incoming rfl)

/-- The arguments of a call that is executed next are numbers. -/
theorem Stands.exists_arguments (h : f.Stands arity typing before l) {target : ValueId}
    {callee : String} {arguments : List ValueId}
    (hpending : f.pending = .call target callee arguments :: rest) :
    ∃ xs, arguments.mapM ({ f with pending := rest } : Frame).number = .ok xs := by
  refine exists_mapM_number_eq (f := { f with pending := rest }) fun v hv => ?_
  exact h.has_operand hpending (List.mem_map_of_mem hv) ((h.executable hpending).typed.1 v hv)

/-- The block has a terminator. -/
theorem Stands.exists_terminator (h : f.Stands arity typing before l) :
    ∃ x, f.block.terminator = some x ∧ Ssa.terminatorAt? f.body.blocks f.current = some x := by
  obtain ⟨x, hx⟩ :=
    Option.isSome_iff_exists.1 (h.runnable.terminated f.block (List.mem_of_getElem? h.block))
  refine ⟨x, hx, ?_⟩
  rw [Ssa.terminatorAt?, h.block]
  exact hx

/-- At the end of a block the frame gets to any block that the terminator leads to. -/
theorem Stands.moveTo (h : f.Stands arity typing before l) (hpending : f.pending = [])
    {x : Terminator} (hat : Ssa.terminatorAt? f.body.blocks f.current = some x) {target : BlockId}
    (htarget : target ∈ x.targets) :
    ∃ next, f.moveTo target = .ok next ∧ next.Stands arity typing (f.current :: before) 0 := by
  have hend := h.endOf_le hpending
  have hlt := (h.runnable.terminators hat).targets target htarget
  let next : Frame := { f with
    previous := some f.current
    current := target
    block := f.body.blocks[target.index]
    pending := f.body.blocks[target.index].instructions }
  have hmove : f.moveTo target = .ok next := by
    rw [Frame.moveTo, List.getElem?_eq_getElem hlt]
  refine ⟨next, hmove, ?_⟩
  constructor
  case runnable => exact h.runnable
  case path => exact h.path.step ⟨x, hat, htarget⟩
  case previous => rfl
  case block => exact List.getElem?_eq_getElem hlt
  case pending => rfl
  case registers => exact h.registers
  case slots => exact h.slots
  case parameters => exact h.parameters
  case values => exact fun v hpassed => h.values v (hpassed.of_enter hend)
  case stores => exact fun slot hpassed => h.stores slot (hpassed.of_enter hend)

/-- An invocation that begins stands at the entry of its body. -/
theorem stands_start (name : String) {body : Body} {arguments : List Float}
    (hbody : body.Runnable arguments.length typing) :
    ∃ f, start name body arguments = .ok f ∧ f.Stands arguments.length typing [] 0 := by
  obtain ⟨entry, rest, hblocks⟩ := List.exists_cons_of_ne_nil hbody.entry
  refine ⟨_, by rw [start, hblocks], ?_⟩
  constructor
  case runnable => exact hbody
  case path => exact .entry
  case previous => rfl
  case block => rw [hblocks]; rfl
  case pending => rfl
  case registers => exact Array.size_ofFn
  case slots => exact Array.size_replicate
  case parameters =>
    intro v hv
    refine ⟨.number arguments[v.index], ?_, (hbody.numbers v hv).symm⟩
    have hlt := Nat.lt_of_lt_of_le hv hbody.parameters
    simp [Holds, hlt, hv]
  case values => exact fun v hpassed => (Ssa.not_passed_start hpassed).elim
  case stores => exact fun slot hpassed => (Ssa.not_passed_start hpassed).elim

end Frame

/-- The caller can go on with any number that it gets back. -/
def Suspended.Ready (caller : Suspended) : Prop :=
  ∀ x, ∃ next, caller.frame.assign caller.target (.number x) = .ok next ∧ next.Ready

/-- The running invocation can go on, and so can the ones that wait. -/
structure State.Ready (state : State) : Prop where
  frame : state.frame.Ready
  callers : ∀ caller ∈ state.callers, caller.Ready

/-- The machine can go on, or it has come to an end without a fault. -/
def Status.Ready : Status → Prop
  | running state => state.Ready
  | finished (.ok _) => True
  | finished (.error e) => ¬ e.IsMalformed

/-- A call has begun, or there is a cause other than a fault why it has not. -/
def Entry.Ready : Except RuntimeError Entry → Prop
  | .ok (returned ..) => True
  | .ok (invoked frame) => frame.Ready
  | .error e => ¬ e.IsMalformed

variable {m : Machine} {p : Program} {frame : Frame} {callers : List Suspended}

/-- Where the next frame can go on, the machine can. -/
theorem Status.ready_goOn {result : Except RuntimeError Frame}
    (hcallers : ∀ caller ∈ callers, caller.Ready)
    (hresult : ∃ next, result = .ok next ∧ next.Ready) : (Status.goOn callers result).Ready := by
  obtain ⟨next, rfl, hnext⟩ := hresult
  exact ⟨hnext, hcallers⟩

/-- A number can be given back. -/
theorem Status.ready_giveBack (x : Float) (hcallers : ∀ caller ∈ callers, caller.Ready) :
    (Status.giveBack x callers).Ready := by
  cases callers with
  | nil => trivial
  | cons caller callers =>
    obtain ⟨hcaller, hrest⟩ := List.forall_mem_cons.1 hcallers
    exact Status.ready_goOn hrest (hcaller x)

/-- At the end of a block the machine can go on. -/
theorem ready_stepTerminator {arity : Nat} {typing : ValueId → Kind} {before : List BlockId} {l : Nat}
    (h : frame.Stands arity typing before l) (hpending : frame.pending = [])
    (hcallers : ∀ caller ∈ callers, caller.Ready) : (stepTerminator frame callers).Ready := by
  obtain ⟨x, hx, hat⟩ := h.exists_terminator
  have hexecutable := h.runnable.terminators hat
  -- Being at the end of the block, the frame has passed all of it.
  have hhas (operand : ValueId × Kind) (hmem : operand ∈ x.operands) :
      frame.Has operand.1 (typing operand.1) :=
    h.has_of_end hpending (hexecutable.operands operand hmem)
  have hmove (target : BlockId) (htarget : target ∈ x.targets) :
      ∃ next, frame.moveTo target = .ok next ∧ next.Ready := by
    obtain ⟨next, hnext, hstands⟩ := h.moveTo hpending hat htarget
    exact ⟨next, hnext, arity, typing, _, 0, hstands⟩
  unfold stepTerminator
  rw [hx]
  cases x with
  | branch target => exact Status.ready_goOn hcallers (hmove target List.mem_cons_self)
  | branchIf condition consequent alternative =>
    have htyped : typing condition = .truth := hexecutable.typed
    obtain ⟨b, hb⟩ := (htyped ▸ hhas (condition, .truth) List.mem_cons_self).exists_truth
    refine Status.ready_goOn hcallers ?_
    rw [hb.truth_eq]
    refine hmove _ ?_
    cases b with
    | true => exact List.mem_cons_self
    | false => exact List.mem_cons_of_mem _ List.mem_cons_self
  | ret value =>
    have htyped : typing value = .number := hexecutable.typed
    obtain ⟨y, hy⟩ := (htyped ▸ hhas (value, .number) List.mem_cons_self).exists_number
    dsimp only
    rw [hy.number_eq]
    exact Status.ready_giveBack y hcallers

/-- A call of a runnable program does not begin with a fault. -/
theorem ready_enter (hp : p.Runnable) (depth : Nat) (name : String) (arguments : List Float) :
    Entry.Ready (m.enter p depth name arguments) := by
  unfold enter
  split
  · exact id
  · cases hbody : bodyOf? p name with
    | some found =>
      obtain ⟨arity, body⟩ := found
      obtain ⟨f, hf, rfl, hsome⟩ := exists_mem_of_bodyOf? hbody
      obtain ⟨typing, hrunnable⟩ := hp f hf body hsome
      simp only [checkArity]
      split
      · rename_i harity
        rw [harity] at hrunnable
        obtain ⟨frame, hstart, hstands⟩ := Frame.stands_start name hrunnable
        rw [hstart]
        exact ⟨_, typing, [], 0, hstands⟩
      · exact id
    | none =>
      cases m.natives.lookup name with
      | none => exact id
      | some native =>
        simp only [checkArity]
        split
        · trivial
        · exact id

/-- A caller that has begun a call is ready for its result. -/
theorem Suspended.ready_of_call {arity : Nat} {typing : ValueId → Kind} {before : List BlockId}
    {l : Nat} (h : frame.Stands arity typing before l) {target : ValueId} {callee : String}
    {arguments : List ValueId} {rest : List Instruction}
    (hpending : frame.pending = .call target callee arguments :: rest) :
    Suspended.Ready ⟨{ frame with pending := rest }, target⟩ := by
  intro x
  have htyped : typing target = .number := (h.executable hpending).typed.2
  have hkind : (Value.number x).kind = typing target := htyped.symm
  obtain ⟨next, hnext, hstands⟩ := h.assign hpending rfl hkind
  exact ⟨next, hnext, arity, typing, before, l + 1, hstands⟩

/-- A step keeps the machine ready. -/
theorem State.Ready.step (hp : p.Runnable) {state : State} (h : state.Ready) :
    (m.step p state).status.Ready := by
  obtain ⟨frame, callers⟩ := state
  obtain ⟨⟨arity, typing, before, l, hstands⟩, hcallers⟩ := h
  cases hpending : frame.pending with
  | nil =>
    rw [step_terminator hpending]
    exact ready_stepTerminator hstands hpending hcallers
  | cons x rest =>
    cases x with
    | assign target operation =>
      rw [step_assign hpending, Frame.evaluate_pending]
      obtain ⟨value, hvalue, hkind⟩ := hstands.evaluate hpending
      obtain ⟨next, hnext, hbehind⟩ := hstands.assign hpending rfl hkind
      refine Status.ready_goOn hcallers ⟨next, ?_, arity, typing, before, l + 1, hbehind⟩
      rw [hvalue]
      exact hnext
    | store slot v =>
      rw [step_store hpending]
      obtain ⟨next, hnext, hbehind⟩ := hstands.store hpending
      exact Status.ready_goOn hcallers ⟨next, hnext, arity, typing, before, l + 1, hbehind⟩
    | call target callee arguments =>
      have hcaller := Suspended.ready_of_call hstands hpending
      obtain ⟨xs, hxs⟩ := hstands.exists_arguments hpending
      have hentry : Entry.Ready (m.enter p (callers.length + 1) callee xs) := ready_enter hp ..
      rw [step_call hpending, stepCall]
      simp only [hxs]
      cases henter : m.enter p (callers.length + 1) callee xs with
      | error e =>
        rw [henter] at hentry
        exact hentry
      | ok entry =>
        rw [henter] at hentry
        cases entry with
        | returned value call => exact Status.ready_goOn hcallers (hcaller value)
        | invoked inner => exact ⟨hentry, List.forall_mem_cons.2 ⟨hcaller, hcallers⟩⟩

/-- A run that begins ready does not end with a fault. -/
theorem State.Ready.runFrom (hp : p.Runnable) {state : State} (h : state.Ready) {fuel : Nat}
    {natives : List NativeCall} {run : Run} (hrun : m.runFrom p fuel state natives = some run)
    {e : RuntimeError} (he : run.result = .error e) : ¬ e.IsMalformed := by
  induction fuel generalizing state natives with
  | zero => cases hrun
  | succ fuel ih =>
    have hstep := h.step (m := m) hp
    rcases hstatus : m.step p state with ⟨status, native⟩
    rw [hstatus] at hstep
    cases status with
    | finished result =>
      rw [runFrom_succ_of_finished hstatus] at hrun
      obtain rfl := Option.some.inj hrun
      subst he
      exact hstep
    | running next =>
      rw [runFrom_succ_of_running hstatus] at hrun
      exact ih hstep hrun

/-- A program whose bodies are runnable is never found to be malformed, whatever is called and
whatever native functions there are. -/
theorem call_ne_malformed (hp : p.Runnable) (m : Machine) (fuel : Nat) (name : String)
    (arguments : List Float) (function : String) (fault : Fault) (natives : List NativeCall) :
    m.call p fuel name arguments ≠ some ⟨.error (.malformed function fault), natives⟩ := by
  intro hcall
  have hentry : Entry.Ready (m.enter p 0 name arguments) := ready_enter hp ..
  unfold call at hcall
  cases henter : m.enter p 0 name arguments with
  | error e =>
    rw [henter] at hcall hentry
    cases hcall
    exact hentry trivial
  | ok entry =>
    rw [henter] at hcall hentry
    cases entry with
    | returned value call => cases hcall
    | invoked frame =>
      have hready : State.Ready ⟨frame, []⟩ := ⟨hentry, fun _ hmem => by cases hmem⟩
      exact hready.runFrom hp hcall rfl trivial

/-- The loop in a program of its own. Its phi is computed in every round. -/
theorem spin_ne_malformed :
    let p : Program := ⟨[⟨"spin", ["x"], some Ssa.spin⟩]⟩
    p.Runnable ∧ ∀ fuel function fault natives,
      standard.call p fuel "spin" [1] ≠ some ⟨.error (.malformed function fault), natives⟩ := by
  intro p
  have hp : p.Runnable := by
    intro f hf body hbody
    obtain rfl := List.mem_singleton.1 hf
    obtain rfl := Option.mem_some_iff.1 hbody
    exact ⟨Ssa.spinTyping, Ssa.runnable_spin⟩
  exact ⟨hp, fun fuel => call_ne_malformed hp standard fuel "spin" [1]⟩

end Kaleidoscope.Machine
