import Kaleidoscope.Proofs.Machine.Phis

/-!
# The order of phis

Two programs that differ in the order of the phis that their blocks begin with are compared here,
step by step. As long as the frames agree and what is pending is the same, a step does the same in
both. Where one of them gets to the beginning of a block, so does the other, and only there the phis
are still to come.
-/

namespace Kaleidoscope

namespace Ssa

/-- The blocks differ in the order of the phis that they begin with at most. -/
structure Block.Reordered (b b' : Block) : Prop where
  label : b'.label = b.label
  phis : (leadingPhis b'.instructions).Perm (leadingPhis b.instructions)
  behind : behindPhis b'.instructions = behindPhis b.instructions
  terminator : b'.terminator = b.terminator

/-- Phis that have been reordered can be put back. -/
theorem Block.Reordered.symm {b b' : Block} (h : b.Reordered b') : b'.Reordered b :=
  ⟨h.label.symm, h.phis.symm, h.behind.symm, h.terminator.symm⟩

/-- The blocks of the bodies differ in the order of their phis at most. -/
structure Body.Reordered (b b' : Body) : Prop where
  slots : b'.slots = b.slots
  blocks : List.Forall₂ Block.Reordered b.blocks b'.blocks
  valueCount : b'.valueCount = b.valueCount

/-- Bodies with reordered phis may change places. -/
theorem Body.Reordered.symm {b b' : Body} (h : b.Reordered b') : b'.Reordered b :=
  ⟨h.slots.symm, h.blocks.flip.imp fun _ _ => Block.Reordered.symm, h.valueCount.symm⟩

end Ssa

namespace Machine

open Ssa (Block BlockId Body Instruction Operation Program SlotId ValueId leadingPhis behindPhis)

variable {m : Machine} {p p' : Program} {f f' : Frame} {callers callers' : List Suspended}

/-- There is no body, or the bodies differ in the order of their phis at most. -/
inductive FoundAlike : Option (Nat × Body) → Option (Nat × Body) → Prop where
  | none : FoundAlike none none
  | some {arity : Nat} {body body' : Body} : body.Reordered body' →
      FoundAlike (some (arity, body)) (some (arity, body'))

/-- The bodies of both programs differ in the order of their phis at most. -/
def Reordered (p p' : Program) : Prop := ∀ name, FoundAlike (bodyOf? p name) (bodyOf? p' name)

/-- Programs with reordered phis may change places. -/
theorem Reordered.symm (h : Reordered p p') : Reordered p' p := by
  intro name
  have hfound := h name
  generalize bodyOf? p name = found at hfound ⊢
  generalize bodyOf? p' name = found' at hfound ⊢
  cases hfound with
  | none => exact .none
  | some hbody => exact .some hbody.symm

/-- The frames differ in the order of phis that are not pending at most. -/
inductive Frame.Aligned (f : Frame) : Frame → Prop where
  | intro {body : Body} {block : Block} : f.body.Reordered body → f.block.Reordered block →
      Aligned f { f with body := body, block := block }

/-- Both frames are at the beginning of a block, and differ in the order of its phis and of others
at most. -/
inductive Frame.Begins (f : Frame) : Frame → Prop where
  | intro {body : Body} {block : Block} : f.body.Reordered body → f.block.Reordered block →
      f.pending = f.block.instructions →
      Begins f { f with body := body, block := block, pending := block.instructions }

/-- Both results are the same failure, or they are frames that are related. -/
inductive Alike (R : Frame → Frame → Prop) :
    Except RuntimeError Frame → Except RuntimeError Frame → Prop where
  | error (e : RuntimeError) : Alike R (.error e) (.error e)
  | ok {f f' : Frame} : R f f' → Alike R (.ok f) (.ok f')

namespace Frame.Aligned

/-- The frames hold the same numbers. -/
theorem number_eq (h : f.Aligned f') : f'.number = f.number := by
  cases h
  rfl

/-- The frames hold the same truth values. -/
theorem truth_eq (h : f.Aligned f') (v : ValueId) : f'.truth v = f.truth v := by
  cases h
  rfl

/-- Whatever has been taken from the pending instructions, the frames are still aligned. -/
theorem withPending (h : f.Aligned f') (rest : List Instruction) :
    ({ f with pending := rest } : Frame).Aligned { f' with pending := rest } := by
  cases h with
  | intro hbody hblock => exact .intro hbody hblock

/-- Operations have the same values. -/
theorem evaluate_eq (h : f.Aligned f') (operation : Operation) :
    f'.evaluate operation = f.evaluate operation := by
  cases h with
  | intro hbody hblock =>
    cases operation with
    | phi incoming =>
      simp only [evaluate, fault, hblock.label]
      rfl
    | _ => rfl

/-- Writing a register keeps frames aligned. -/
theorem assign (h : f.Aligned f') (v : ValueId) (x : Value) :
    Alike Aligned (f.assign v x) (f'.assign v x) := by
  cases h with
  | intro hbody hblock =>
    by_cases hv : v.index < f.registers.size
    · simp only [Frame.assign, dif_pos hv]
      exact .ok (.intro hbody hblock)
    · simp only [Frame.assign, dif_neg hv]
      exact .error _

/-- Writing a slot keeps frames aligned. -/
theorem store (h : f.Aligned f') (slot : SlotId) (x : Float) :
    Alike Aligned (f.store slot x) (f'.store slot x) := by
  cases h with
  | intro hbody hblock =>
    by_cases hslot : slot.index < f.slots.size
    · simp only [Frame.store, dif_pos hslot]
      exact .ok (.intro hbody hblock)
    · simp only [Frame.store, dif_neg hslot]
      exact .error _

/-- Control is passed on to the beginning of the same block. -/
theorem moveTo (h : f.Aligned f') (target : BlockId) :
    Alike Begins (f.moveTo target) (f'.moveTo target) := by
  cases h with
  | intro hbody hblock =>
    have hblocks := hbody.blocks
    rcases Nat.lt_or_ge target.index f.body.blocks.length with hlt | hge
    · have hlt' := hblocks.length_eq ▸ hlt
      have hfound := hblocks.get hlt hlt'
      simp only [Frame.moveTo, List.getElem?_eq_getElem hlt, List.getElem?_eq_getElem hlt']
      exact .ok (.intro hbody hfound rfl)
    · have hge' := hblocks.length_eq ▸ hge
      simp only [Frame.moveTo, List.getElem?_eq_none hge, List.getElem?_eq_none hge']
      exact .error _

end Frame.Aligned

/-- An invocation begins at the beginning of the same block. -/
theorem begins_start {body body' : Body} (h : body.Reordered body') (name : String)
    (arguments : List Float) :
    Alike Frame.Begins (Frame.start name body arguments) (Frame.start name body' arguments) := by
  obtain ⟨slots, blocks, count⟩ := body
  obtain ⟨slots', blocks', count'⟩ := body'
  obtain rfl : slots' = slots := h.slots
  obtain rfl : count' = count := h.valueCount
  cases h.blocks with
  | nil => exact .error _
  | cons hentry hmore => exact .ok (.intro h hentry rfl)

/-- The invocations that wait differ in the order of phis at most, and wait for the same results. -/
inductive Suspended.Aligned (caller : Suspended) : Suspended → Prop where
  | intro {frame : Frame} : caller.frame.Aligned frame → Aligned caller ⟨frame, caller.target⟩

/-- Both runs have come to an end alike, or they are at the same point. -/
inductive Status.Alike : Status → Status → Prop where
  | finished (result : Except RuntimeError Float) : Alike (.finished result) (.finished result)
  | aligned {f f' : Frame} {callers callers' : List Suspended} : f.Aligned f' →
      List.Forall₂ Suspended.Aligned callers callers' →
      Alike (.running ⟨f, callers⟩) (.running ⟨f', callers'⟩)
  | begins {f f' : Frame} {callers callers' : List Suspended} : f.Begins f' →
      List.Forall₂ Suspended.Aligned callers callers' →
      Alike (.running ⟨f, callers⟩) (.running ⟨f', callers'⟩)

/-- Both steps lead to the same point, with the same call of a native function. -/
structure Step.Alike (s s' : Step) : Prop where
  status : s.status.Alike s'.status
  native : s'.native = s.native

/-- Both calls begin alike. -/
inductive Entry.Alike : Except RuntimeError Entry → Except RuntimeError Entry → Prop where
  | error (e : RuntimeError) : Alike (.error e) (.error e)
  | returned (value : Float) (call : NativeCall) :
      Alike (.ok (.returned value call)) (.ok (.returned value call))
  | invoked {f f' : Frame} : f.Begins f' → Alike (.ok (.invoked f)) (.ok (.invoked f'))

section Steps

variable {result result' : Except RuntimeError Frame}

/-- Going on with aligned frames keeps runs alike. -/
theorem goOn_aligned (h : Alike Frame.Aligned result result')
    (hcallers : List.Forall₂ Suspended.Aligned callers callers') :
    (Status.goOn callers result).Alike (Status.goOn callers' result') := by
  cases h with
  | error e => exact .finished _
  | ok hframe => exact .aligned hframe hcallers

/-- Going on with frames that begin a block keeps runs alike. -/
theorem goOn_begins (h : Alike Frame.Begins result result')
    (hcallers : List.Forall₂ Suspended.Aligned callers callers') :
    (Status.goOn callers result).Alike (Status.goOn callers' result') := by
  cases h with
  | error e => exact .finished _
  | ok hframe => exact .begins hframe hcallers

/-- Calls of the same function begin alike. -/
theorem enter_alike (hp : Reordered p p') (depth : Nat) (name : String) (arguments : List Float) :
    Entry.Alike (m.enter p depth name arguments) (m.enter p' depth name arguments) := by
  rw [enter, enter]
  split
  · exact .error _
  · have hfound := hp name
    generalize bodyOf? p name = found at hfound
    generalize bodyOf? p' name = found' at hfound
    cases hfound with
    | none =>
      cases m.natives.lookup name with
      | none => exact .error _
      | some native =>
        simp only [checkArity]
        split
        · exact .returned _ _
        · exact .error _
    | @some arity body body' hbody =>
      have hstart := begins_start hbody name arguments
      simp only [checkArity]
      split
      · generalize Frame.start name body arguments = started at hstart
        generalize Frame.start name body' arguments = started' at hstart
        cases hstart with
        | error e => exact .error e
        | ok hbegins => exact .invoked hbegins
      · exact .error _

/-- A value is given back to the same caller. -/
theorem giveBack_alike (x : Float) (hcallers : List.Forall₂ Suspended.Aligned callers callers') :
    (Status.giveBack x callers).Alike (Status.giveBack x callers') := by
  cases hcallers with
  | nil => exact .finished _
  | cons hcaller hmore =>
    cases hcaller with
    | intro hframe => exact goOn_aligned (hframe.assign _ _) hmore

/-- A block is left alike in aligned frames. -/
theorem stepTerminator_alike (h : f.Aligned f')
    (hcallers : List.Forall₂ Suspended.Aligned callers callers') :
    (stepTerminator f callers).Alike (stepTerminator f' callers') := by
  have hnumber := h.number_eq
  have htruth := h.truth_eq
  have hmove := h.moveTo
  have hblock : f.block.Reordered f'.block := by
    cases h with
    | intro _ hblock => exact hblock
  have hfault (fault : Fault) : (f'.fault fault : Except RuntimeError Float) = f.fault fault := by
    cases h
    rfl
  rw [stepTerminator, stepTerminator, hblock.terminator]
  cases f.block.terminator with
  | none =>
    simp only [hfault, hblock.label]
    exact .finished _
  | some terminator =>
    cases terminator with
    | branch target => exact goOn_begins (hmove target) hcallers
    | branchIf condition consequent alternative =>
      simp only [htruth]
      cases f.truth condition with
      | error e => exact .finished _
      | ok holds => exact goOn_begins (hmove _) hcallers
    | ret value =>
      simp only [hnumber]
      cases f.number value with
      | error e => exact .finished _
      | ok x => exact giveBack_alike x hcallers

/-- A function is called alike from aligned frames. -/
theorem stepCall_alike (hp : Reordered p p') (h : f.Aligned f')
    (hcallers : List.Forall₂ Suspended.Aligned callers callers') (target : ValueId)
    (callee : String) (arguments : List ValueId) :
    (m.stepCall p f callers target callee arguments).Alike
      (m.stepCall p' f' callers' target callee arguments) := by
  rw [stepCall, stepCall, h.number_eq, ← hcallers.length_eq]
  cases arguments.mapM f.number with
  | error e => exact ⟨.finished _, rfl⟩
  | ok values =>
    have hentry := enter_alike (m := m) hp (callers.length + 1) callee values
    dsimp only
    generalize m.enter p (callers.length + 1) callee values = entry at hentry
    generalize m.enter p' (callers.length + 1) callee values = entry' at hentry
    cases hentry with
    | error e => exact ⟨.finished _, rfl⟩
    | returned value call => exact ⟨goOn_aligned (h.assign _ _) hcallers, rfl⟩
    | invoked hbegins => exact ⟨.begins hbegins (.cons (.intro h) hcallers), rfl⟩

/-- From aligned states both runs get to the same point. -/
theorem step_alike (hp : Reordered p p') (h : f.Aligned f')
    (hcallers : List.Forall₂ Suspended.Aligned callers callers') :
    (m.step p ⟨f, callers⟩).Alike (m.step p' ⟨f', callers'⟩) := by
  have hpending : f'.pending = f.pending := by
    cases h
    rfl
  cases hrest : f.pending with
  | nil =>
    rw [step_terminator hrest, step_terminator (hpending.trans hrest)]
    exact ⟨stepTerminator_alike h hcallers, rfl⟩
  | cons instruction rest =>
    have hbehind := h.withPending rest
    cases instruction with
    | assign target operation =>
      rw [step_assign hrest, step_assign (hpending.trans hrest), hbehind.evaluate_eq]
      cases ({ f with pending := rest } : Frame).evaluate operation with
      | error e => exact ⟨.finished _, rfl⟩
      | ok x => exact ⟨goOn_aligned (hbehind.assign target x) hcallers, rfl⟩
    | store slot v =>
      rw [step_store hrest, step_store (hpending.trans hrest), hbehind.number_eq]
      cases ({ f with pending := rest } : Frame).number v with
      | error e => exact ⟨.finished _, rfl⟩
      | ok x => exact ⟨goOn_aligned (hbehind.store slot x) hcallers, rfl⟩
    | call target callee arguments =>
      rw [step_call hrest, step_call (hpending.trans hrest)]
      exact stepCall_alike hp hbehind hcallers target callee arguments

end Steps

end Machine

end Kaleidoscope
