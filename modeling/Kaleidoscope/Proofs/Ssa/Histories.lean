import Kaleidoscope.Proofs.Ssa.Names
import Mathlib.Data.List.Range

/-!
# Builders keep to their history

A builder may be told anything in any order, as long as it only goes to blocks that are there. What
it has produced then is what it was told: every block has received its instructions in the order of
time, new values are numbered in the order of time, and the verdict in the end names the block that
was the first to be terminated twice, or else the first one that was never terminated.
-/

namespace Kaleidoscope.Ssa.Builder

/-- What a builder can be told. -/
inductive Action where
  | appendBlock (label : String)
  | moveTo (block : BlockId)
  | allocate (variableName : String)
  | assign (operation : Operation)
  | call (callee : String) (arguments : List ValueId)
  | store (slot : SlotId) (value : ValueId)
  | terminate (terminator : Terminator)

/-- Do what is told. The new value is returned if there is one. -/
def perform (b : Builder) : Action → Option ValueId × Builder
  | .appendBlock label => (none, (b.appendBlock label).2)
  | .moveTo block => (none, b.moveTo block)
  | .allocate variableName => (none, (b.allocate variableName).2)
  | .assign operation => (some (b.assign operation).1, (b.assign operation).2)
  | .call callee arguments => (some (b.call callee arguments).1, (b.call callee arguments).2)
  | .store slot value => (none, b.store slot value)
  | .terminate terminator => (none, b.terminate terminator)

/-- Do all that is told. The new values are returned in the order of time. -/
def performAll (b : Builder) : List Action → List ValueId × Builder
  | [] => ([], b)
  | action :: actions =>
    let later := (b.perform action).2.performAll actions
    ((b.perform action).1.toList ++ later.1, later.2)

namespace Action

/-- Where a builder that stands in the block `here` stands afterwards. -/
def standing (here : BlockId) : Action → BlockId
  | moveTo block => block
  | _ => here

/-- Is a value computed? -/
def computes : Action → Bool
  | assign _ | call .. => true
  | _ => false

/-- Is a block added? -/
def addsBlock : Action → Bool
  | appendBlock _ => true
  | _ => false

/-- The name of the slot that is added. -/
def slot? : Action → Option String
  | allocate variableName => some variableName
  | _ => none

/-- The instruction that is added if the next value has the number `next`. -/
def instruction? (next : Nat) : Action → Option Instruction
  | assign operation => some (.assign ⟨next⟩ operation)
  | call callee arguments => some (.call ⟨next⟩ callee arguments)
  | store slot value => some (.store slot value)
  | _ => none

/-- The terminator that is added. -/
def terminator? : Action → Option Terminator
  | terminate terminator => some terminator
  | _ => none

/-- Only one of the first `count` blocks is gone to. -/
def Within (count : Nat) : Action → Prop
  | moveTo block => block.index < count
  | _ => True

end Action

/-- No block is gone to before it is there, if `count` blocks are there at first. -/
def Positioned (count : Nat) : List Action → Prop
  | [] => True
  | action :: actions => action.Within count ∧ Positioned (count + action.addsBlock.toNat) actions

/-- What a history adds to blocks, with the blocks that it is added to, in the order of time. At
first the builder stands in the block `here` and its next value has the number `next`. -/
def given {α : Type} (what : Nat → Action → Option α) (here : BlockId) (next : Nat) :
    List Action → List (BlockId × α)
  | [] => []
  | action :: actions =>
    (what next action).toList.map (here, ·) ++
      given what (action.standing here) (next + action.computes.toNat) actions

/-- What is added to one block. -/
def received {α : Type} (i : BlockId) (given : List (BlockId × α)) : List α :=
  given.filterMap fun (block, x) => if block = i then some x else none

/-- The instructions that a function with so many parameters is given. -/
abbrev instructionsOf (arity : Nat) (actions : List Action) : List (BlockId × Instruction) :=
  given Action.instruction? .entry arity actions

/-- The terminators that a function with so many parameters is given. -/
abbrev terminatorsOf (arity : Nat) (actions : List Action) : List (BlockId × Terminator) :=
  given (fun _ => Action.terminator?) .entry arity actions

/-- The block is the first one to appear twice. -/
def FirstRepeated (block : BlockId) (blocks : List BlockId) : Prop :=
  ∃ before behind, blocks = before ++ block :: behind ∧ before.Nodup ∧ block ∈ before

section Step

variable {b : Builder} (action : Action)

/-- The function keeps its name. -/
theorem perform_name : (b.perform action).2.name = b.name := by cases action <;> rfl

/-- The function keeps its parameters. -/
theorem perform_parameters : (b.perform action).2.parameters = b.parameters := by cases action <;> rfl

/-- A slot that is added comes last. -/
theorem perform_slots : (b.perform action).2.slots = b.slots ++ action.slot?.toList := by
  cases action <;> first | rfl | exact (List.append_nil _).symm

/-- The builder stands in the block that it is told to go to. -/
theorem perform_current : (b.perform action).2.current = action.standing b.current := by
  cases action <;> rfl

/-- Each value that is computed is counted. -/
theorem perform_valueCount : (b.perform action).2.valueCount = b.valueCount + action.computes.toNat := by
  cases action <;> rfl

/-- A value that is computed has the next number. -/
theorem perform_value :
    (b.perform action).1.toList = (List.range' b.valueCount action.computes.toNat).map ValueId.mk := by
  cases action <;> rfl

/-- Each block that is added is counted. -/
theorem length_perform :
    (b.perform action).2.blocks.length = b.blocks.length + action.addsBlock.toNat := by
  cases action with
  | appendBlock label => exact b.length_appendBlock label
  | assign operation => exact b.length_append _
  | call callee arguments => exact b.length_append _
  | store slot value => exact b.length_append _
  | terminate terminator => exact b.length_terminate terminator
  | moveTo | allocate => rfl

/-- Names stay unique. -/
theorem named_perform (h : b.body.Named b.parameters.length) (hlt : b.current.index < b.blocks.length) :
    (b.perform action).2.body.Named b.parameters.length := by
  cases action with
  | appendBlock label => exact named_appendBlock h label
  | assign operation => exact named_appendValue h hlt (x := (.assign · operation)) fun _ => rfl
  | call callee arguments => exact named_appendValue h hlt (x := (.call · callee arguments)) fun _ => rfl
  | store slot value => exact named_append h hlt rfl
  | terminate terminator => exact named_terminate h terminator
  | moveTo | allocate => exact ⟨h.labels, h.values, h.destinations⟩

end Step

section Received

variable {α : Type} {i : BlockId} {past : List (BlockId × α)}

/-- One block receives what is added last. -/
theorem received_snoc (i here : BlockId) (past : List (BlockId × α)) (x : α) :
    received i (past ++ [(here, x)]) =
      if here = i then received i past ++ [x] else received i past := by
  by_cases h : here = i
  · simp [received, h]
  · simp [received, h]

/-- A block has received nothing if it is none of the blocks that were given anything. -/
theorem received_eq_nil_iff : received i past = [] ↔ i ∉ past.map Prod.fst := by
  simp only [received, List.filterMap_eq_nil_iff, ite_eq_right_iff, reduceCtorEq, imp_false,
    List.mem_map, not_exists, not_and]

end Received

/-- The builder has produced what it was given, if `code` and `ends` are all the instructions and
terminators so far. -/
structure Records (code : List (BlockId × Instruction)) (ends : List (BlockId × Terminator))
    (b : Builder) : Prop where
  standing : b.current.index < b.blocks.length
  named : b.body.Named b.parameters.length
  instructions : ∀ {i : BlockId} {block : Block}, b.blocks[i.index]? = some block →
    block.instructions = received i code
  /-- A later terminator takes the place of an earlier one. -/
  terminator : ∀ {i : BlockId} {block : Block}, b.blocks[i.index]? = some block →
    block.terminator = (received i ends).getLast?
  within : ∀ {i : BlockId}, i ∈ code.map Prod.fst ∨ i ∈ ends.map Prod.fst → i.index < b.blocks.length
  once : b.overterminated = none → (ends.map Prod.fst).Nodup
  again : ∀ {i : BlockId}, b.overterminated = some i → FirstRepeated i (ends.map Prod.fst)

variable {code : List (BlockId × Instruction)} {ends : List (BlockId × Terminator)} {b later : Builder}

/-- A builder begins with one empty block. -/
theorem records_start (name : String) (parameters : List String) :
    Records [] [] (start name parameters) where
  standing := Nat.zero_lt_one
  named := named_start name parameters
  instructions h := by
    cases List.mem_singleton.1 (List.mem_of_getElem? h)
    rfl
  terminator h := by
    cases List.mem_singleton.1 (List.mem_of_getElem? h)
    rfl
  within h := by
    rcases h with h | h <;> cases h
  once _ := List.nodup_nil
  again h := by cases h

/-- Where a builder stands and what its values and slots are does not matter to what blocks have
received. -/
theorem Records.of_blocks (h : Records code ends b) (hblocks : later.blocks = b.blocks)
    (hagain : later.overterminated = b.overterminated)
    (hstanding : later.current.index < later.blocks.length)
    (hnamed : later.body.Named later.parameters.length) : Records code ends later := by
  refine ⟨hstanding, hnamed, ?_, ?_, ?_, ?_, ?_⟩
  · rw [hblocks]; exact h.instructions
  · rw [hblocks]; exact h.terminator
  · rw [hblocks]; exact h.within
  · rw [hagain]; exact h.once
  · rw [hagain]; exact h.again

/-- The blocks that were given something are there after one more was. -/
theorem lt_of_mem_snoc {α : Type} {past : List (BlockId × α)} {here i : BlockId} {x : α} {count : Nat}
    (hpast : i ∈ past.map Prod.fst → i.index < count) (hhere : here.index < count)
    (hi : i ∈ (past ++ [(here, x)]).map Prod.fst) : i.index < count := by
  rw [List.map_append, List.mem_append] at hi
  rcases hi with hi | hi
  · exact hpast hi
  · cases List.mem_singleton.1 hi
    exact hhere

/-- An instruction goes to the end of the block where the builder stands. -/
theorem Records.append (h : Records code ends b) {x : Instruction}
    (hblocks : later.blocks = (b.append x).blocks) (hagain : later.overterminated = b.overterminated)
    (hcurrent : later.current = b.current) (hnamed : later.body.Named later.parameters.length) :
    Records (code ++ [(b.current, x)]) ends later := by
  have hlength : later.blocks.length = b.blocks.length := hblocks ▸ b.length_append x
  refine ⟨?_, hnamed, fun {i block} hblock => ?_, fun {i block} hblock => ?_, fun {i} hi => ?_, ?_, ?_⟩
  · rw [hcurrent, hlength]
    exact h.standing
  · rw [hblocks, append_blocks] at hblock
    rw [received_snoc]
    split at hblock
    · rename_i heq
      obtain ⟨earlier, hearlier, rfl⟩ := Option.map_eq_some_iff.1 hblock
      rw [if_pos (BlockId.eq_of_index heq), h.instructions hearlier]
    · rename_i hne
      rw [if_neg fun heq => hne (congrArg BlockId.index heq), h.instructions hblock]
  · rw [hblocks, append_blocks] at hblock
    split at hblock
    · obtain ⟨earlier, hearlier, rfl⟩ := Option.map_eq_some_iff.1 hblock
      have hended := h.terminator hearlier
      exact hended
    · exact h.terminator hblock
  · rw [hlength]
    rcases hi with hi | hi
    · exact lt_of_mem_snoc (fun hpast => h.within (.inl hpast)) h.standing hi
    · exact h.within (.inr hi)
  · rw [hagain]; exact h.once
  · rw [hagain]; exact h.again

/-- A terminator too many is one for a block that was given one before. -/
theorem Records.overterminated_terminate (h : Records code ends b) (terminator : Terminator) :
    (b.terminate terminator).overterminated =
      b.overterminated.or (if b.current ∈ ends.map Prod.fst then some b.current else none) := by
  have hblock := List.getElem?_eq_getElem h.standing
  have hagain : (b.blocks[b.current.index]?.any (·.terminator.isSome)) =
      decide (b.current ∈ ends.map Prod.fst) := by
    rw [hblock, Option.any_some, h.terminator hblock, Bool.eq_iff_iff, List.getLast?_isSome,
      decide_eq_true_iff, ne_eq, received_eq_nil_iff, not_not]
  simp only [Builder.terminate, hagain, decide_eq_true_eq, Option.orElse_eq_orElse,
    Option.orElse_eq_or]

/-- A terminator goes to the block where the builder stands, and the first one too many is noted. -/
theorem Records.terminate (h : Records code ends b) (terminator : Terminator) :
    Records code (ends ++ [(b.current, terminator)]) (b.terminate terminator) := by
  have hlength := b.length_terminate terminator
  have hagain := h.overterminated_terminate terminator
  refine ⟨?_, named_terminate h.named terminator, fun {i block} hblock => ?_, fun {i block} hblock => ?_,
    fun {i} hi => ?_, fun hnone => ?_, fun {i} hsome => ?_⟩
  · rw [hlength]
    exact h.standing
  · rw [terminate_blocks] at hblock
    split at hblock
    · obtain ⟨earlier, hearlier, rfl⟩ := Option.map_eq_some_iff.1 hblock
      have hcode := h.instructions hearlier
      exact hcode
    · exact h.instructions hblock
  · rw [terminate_blocks] at hblock
    rw [received_snoc]
    split at hblock
    · rename_i heq
      obtain ⟨earlier, hearlier, rfl⟩ := Option.map_eq_some_iff.1 hblock
      rw [if_pos (BlockId.eq_of_index heq), List.getLast?_concat]
    · rename_i hne
      rw [if_neg fun heq => hne (congrArg BlockId.index heq), h.terminator hblock]
  · rw [hlength]
    rcases hi with hi | hi
    · exact h.within (.inl hi)
    · exact lt_of_mem_snoc (fun hpast => h.within (.inr hpast)) h.standing hi
  · rw [hagain, Option.or_eq_none_iff, ite_eq_right_iff] at hnone
    obtain ⟨hbefore, hnew⟩ := hnone
    rw [List.map_append, List.map_singleton, ← List.concat_eq_append]
    exact (h.once hbefore).concat fun hmem => Option.some_ne_none _ (hnew hmem)
  · rw [List.map_append]
    cases hbefore : b.overterminated with
    | some first =>
      rw [hagain, hbefore, Option.some_or, Option.some_inj] at hsome
      subst hsome
      obtain ⟨before, behind, hends, hfirst⟩ := h.again hbefore
      exact ⟨before, behind ++ [b.current], by rw [hends]; simp, hfirst⟩
    | none =>
      rw [hagain, hbefore, Option.none_or, Option.ite_none_right_eq_some, Option.some_inj] at hsome
      obtain ⟨hmem, rfl⟩ := hsome
      exact ⟨ends.map Prod.fst, [], rfl, h.once hbefore, hmem⟩

/-- A new block has received nothing. -/
theorem Records.appendBlock (h : Records code ends b) (label : String) :
    Records code ends (b.appendBlock label).2 := by
  have hlength := b.length_appendBlock label
  -- Only blocks that were there have received anything.
  have hnothing {α : Type} {past : List (BlockId × α)} {i : BlockId}
      (hwithin : i ∈ past.map Prod.fst → i.index < b.blocks.length) (hi : i.index = b.blocks.length) :
      received i past = [] :=
    received_eq_nil_iff.2 fun hmem => Nat.ne_of_lt (hwithin hmem) hi
  refine ⟨?_, named_appendBlock h.named label, fun {i block} hblock => ?_, fun {i block} hblock => ?_,
    fun hi => hlength ▸ Nat.lt_succ_of_lt (h.within hi), h.once, h.again⟩
  · exact hlength ▸ Nat.lt_succ_of_lt h.standing
  · rw [appendBlock_blocks] at hblock
    split at hblock
    · rename_i hnew
      cases hblock
      exact (hnothing (fun hmem => h.within (.inl hmem)) hnew).symm
    · exact h.instructions hblock
  · rw [appendBlock_blocks] at hblock
    split at hblock
    · rename_i hnew
      cases hblock
      rw [hnothing (fun hmem => h.within (.inr hmem)) hnew]
      rfl
    · exact h.terminator hblock

/-- What is told next adds to what the builder was given. -/
theorem Records.perform (h : Records code ends b) {action : Action}
    (hwithin : action.Within b.blocks.length) :
    Records (code ++ (action.instruction? b.valueCount).toList.map (b.current, ·))
      (ends ++ action.terminator?.toList.map (b.current, ·)) (b.perform action).2 := by
  have hnamed := named_perform action h.named h.standing
  rw [← b.perform_parameters action] at hnamed
  cases action with
  | appendBlock label =>
    change Records (code ++ []) (ends ++ []) _
    rw [List.append_nil, List.append_nil]
    exact h.appendBlock label
  | moveTo block =>
    change Records (code ++ []) (ends ++ []) _
    rw [List.append_nil, List.append_nil]
    exact h.of_blocks rfl rfl hwithin hnamed
  | allocate variableName =>
    change Records (code ++ []) (ends ++ []) _
    rw [List.append_nil, List.append_nil]
    exact h.of_blocks rfl rfl h.standing hnamed
  | terminate terminator =>
    change Records (code ++ []) (ends ++ [_]) _
    rw [List.append_nil]
    exact h.terminate terminator
  | assign | call | store =>
    change Records (code ++ [_]) (ends ++ []) _
    rw [List.append_nil]
    exact h.append rfl rfl rfl hnamed

/-- Those that have a property, with the first one counted apart. -/
theorem countP_cons_eq {p : Action → Bool} (action : Action) (actions : List Action) :
    (action :: actions).countP p = (p action).toNat + actions.countP p := by
  rw [List.countP_cons, Nat.add_comm]
  cases p action <;> rfl

/-- The next values are numbered in the order of time. -/
theorem values_performAll (actions : List Action) (b : Builder) :
    (b.performAll actions).1 =
      (List.range' b.valueCount (actions.countP (·.computes))).map ValueId.mk := by
  induction actions generalizing b with
  | nil => rfl
  | cons action actions ih =>
    rw [performAll, ih, perform_value, perform_valueCount, ← List.map_append, List.range'_append_1,
      countP_cons_eq]

/-- What a history does besides giving instructions and terminators to blocks. -/
theorem performAll_frame (actions : List Action) (b : Builder) :
    (b.performAll actions).2.name = b.name ∧
      (b.performAll actions).2.parameters = b.parameters ∧
      (b.performAll actions).2.slots = b.slots ++ actions.filterMap Action.slot? ∧
      (b.performAll actions).2.valueCount = b.valueCount + actions.countP (·.computes) ∧
      (b.performAll actions).2.blocks.length = b.blocks.length + actions.countP (·.addsBlock) := by
  induction actions generalizing b with
  | nil => exact ⟨rfl, rfl, (List.append_nil _).symm, rfl, rfl⟩
  | cons action actions ih =>
    obtain ⟨hname, hparameters, hslots, hvalues, hlength⟩ := ih (b.perform action).2
    refine ⟨hname.trans (b.perform_name action), hparameters.trans (b.perform_parameters action), ?_,
      hvalues.trans ?_, hlength.trans ?_⟩
    · refine hslots.trans ?_
      rw [perform_slots, List.append_assoc, List.filterMap_cons]
      cases action.slot? <;> rfl
    · rw [perform_valueCount, countP_cons_eq, Nat.add_assoc]
    · rw [length_perform, countP_cons_eq, Nat.add_assoc]

/-- What is told adds to what the builder was given. -/
theorem Records.performAll {actions : List Action} (h : Records code ends b)
    (hpositioned : Positioned b.blocks.length actions) :
    Records (code ++ given Action.instruction? b.current b.valueCount actions)
      (ends ++ given (fun _ => Action.terminator?) b.current b.valueCount actions)
      (b.performAll actions).2 := by
  induction actions generalizing code ends b with
  | nil =>
    rw [given, given, List.append_nil, List.append_nil]
    exact h
  | cons action actions ih =>
    obtain ⟨hwithin, hpositioned⟩ := hpositioned
    rw [← b.length_perform] at hpositioned
    have hlater := ih (h.perform hwithin) hpositioned
    rw [perform_current, perform_valueCount, List.append_assoc, List.append_assoc] at hlater
    exact hlater

/-- A block has received as much as it appears among those that were given something. -/
theorem length_received {α : Type} (i : BlockId) (past : List (BlockId × α)) :
    (received i past).length = (past.map Prod.fst).count i := by
  induction past with
  | nil => rfl
  | cons entry past ih =>
    obtain ⟨block, x⟩ := entry
    rw [List.map_cons, List.count_cons, ← ih]
    by_cases h : block = i
    · simp [received, h]
    · simp [received, h]

/-- A block that appears twice is not like that. -/
theorem FirstRepeated.two_le_count {i : BlockId} {blocks : List BlockId} (h : FirstRepeated i blocks) :
    2 ≤ blocks.count i := by
  obtain ⟨before, behind, rfl, -, hmem⟩ := h
  have := List.one_le_count_iff.2 hmem
  rw [List.count_append, List.count_cons_self]
  omega

/-- The complaint that the terminators `ends` give rise to in the function `name` with the labels
`labels`. Terminating twice comes before not terminating. -/
inductive Complaint (name : String) (labels : List String) (ends : List (BlockId × Terminator)) :
    VerifyError → Prop where
  | multiple {i : BlockId} {label : String} : FirstRepeated i (ends.map Prod.fst) →
    labels[i.index]? = some label → Complaint name labels ends (.multipleTerminators label name)
  | missing {i : BlockId} {label : String} : (ends.map Prod.fst).Nodup → received i ends = [] →
    (∀ j : BlockId, j.index < i.index → received j ends ≠ []) → labels[i.index]? = some label →
    Complaint name labels ends (.missingTerminator label name)

/-- A complaint is about a block that has not received one terminator. -/
theorem Complaint.exists_length_ne_one {name : String} {labels : List String} {error : VerifyError}
    (h : Complaint name labels ends error) :
    ∃ i : BlockId, i.index < labels.length ∧ (received i ends).length ≠ 1 := by
  cases h with
  | @multiple i _ hrepeated hlabel =>
    have := hrepeated.two_le_count
    rw [← length_received] at this
    exact ⟨i, (List.getElem?_eq_some_iff.1 hlabel).1, by omega⟩
  | @missing i _ _ hnil _ hlabel =>
    exact ⟨i, (List.getElem?_eq_some_iff.1 hlabel).1, by rw [hnil]; exact Nat.zero_ne_one⟩

/-- The final check complains, or every block has received one terminator. -/
theorem Records.finish_cases (h : Records code ends b) :
    (∃ error, b.finish = .error error ∧ Complaint b.name (b.blocks.map Block.label) ends error) ∨
      b.finish = .ok ⟨b.name, b.parameters, some b.body⟩ ∧
        ∀ i : BlockId, i.index < b.blocks.length → (received i ends).length = 1 := by
  have hlabel {i : Nat} (hlt : i < b.blocks.length) :
      (b.blocks.map Block.label)[i]? = some b.blocks[i].label := by
    rw [List.getElem?_map, List.getElem?_eq_getElem hlt, Option.map_some]
  cases hagain : b.overterminated with
  | some i =>
    obtain ⟨before, behind, hends, hfirst⟩ := h.again hagain
    have hlt : i.index < b.blocks.length := h.within (.inr (by simp [hends]))
    refine .inl ⟨_, ?_, .multiple ⟨before, behind, hends, hfirst⟩ (hlabel hlt)⟩
    simp only [finish, hagain, labelOf, List.getElem?_eq_getElem hlt, Option.map_some, Option.getD_some]
  | none =>
    have hnodup := h.once hagain
    -- A block without terminator has received none.
    have hopen {i : BlockId} (hlt : i.index < b.blocks.length) :
        b.blocks[i.index].terminator.isNone = true ↔ received i ends = [] := by
      rw [h.terminator (List.getElem?_eq_getElem hlt), Option.isNone_iff_eq_none,
        List.getLast?_eq_none_iff]
    cases hfind : b.blocks.find? (·.terminator.isNone) with
    | some block =>
      obtain ⟨hnone, i, hlt, rfl, hbefore⟩ := List.find?_eq_some_iff_getElem.1 hfind
      refine .inl ⟨_, ?_, .missing hnodup ((@hopen ⟨i⟩ hlt).1 hnone) (fun j hj hnil => ?_) (hlabel hlt)⟩
      · simp only [finish, hagain, hfind]
      · have hsome := hbefore j.index hj
        rw [(hopen (Nat.lt_trans hj hlt)).2 hnil] at hsome
        cases hsome
    | none =>
      refine .inr ⟨?_, fun i hlt => ?_⟩
      · simp only [finish, hagain, hfind]
        rfl
      · have hsome : received i ends ≠ [] := fun hnil =>
          List.find?_eq_none.1 hfind _ (List.getElem_mem hlt) ((hopen hlt).2 hnil)
        have hpos := List.length_pos_iff.2 hsome
        have hle := List.nodup_iff_count_le_one.1 hnodup i
        rw [← length_received] at hle
        omega

/-- Whatever a builder is told, as long as it goes to no block that is not there, labels stay
distinct and the search for a new one ends. The values are numbered in the order of time behind the
parameters, and each is the destination of one instruction. The final check succeeds if every block
has received one terminator, and then the function has in each block what the block has received.
Otherwise the complaint is about the block that was the first to be terminated twice, or if there is
none, about the first one that was not terminated. -/
theorem history_kept {name : String} {parameters : List String} {actions : List Action}
    {values : List ValueId} {b : Builder} (hpositioned : Positioned 1 actions)
    (hperform : (start name parameters).performAll actions = (values, b)) :
    (b.blocks.length = 1 + actions.countP (·.addsBlock) ∧ (b.blocks.map Block.label).Nodup ∧
      ∀ label, ∃ n ≤ b.blocks.length, b.freshLabel label = numbered label n ∧
        numbered label n ∉ b.blocks.map Block.label ∧
        ∀ m < n, numbered label m ∈ b.blocks.map Block.label) ∧
    (values = (List.range' parameters.length (actions.countP (·.computes))).map ValueId.mk ∧
      ∀ value, (destinations b.blocks).count value = if value ∈ values then 1 else 0) ∧
    ((∃ f, b.finish = .ok f) ↔ ∀ i : BlockId, i.index < b.blocks.length →
      (received i (terminatorsOf parameters.length actions)).length = 1) ∧
    (∀ f, b.finish = .ok f →
      f = ⟨name, parameters, some ⟨actions.filterMap Action.slot?, b.blocks,
        parameters.length + values.length⟩⟩ ∧
      ∀ (i : BlockId) (block : Block), b.blocks[i.index]? = some block →
        block.instructions = received i (instructionsOf parameters.length actions) ∧
        block.terminator.toList = received i (terminatorsOf parameters.length actions)) ∧
    ∀ error, b.finish = .error error →
      Complaint name (b.blocks.map Block.label) (terminatorsOf parameters.length actions) error := by
  have hrecords := (records_start name parameters).performAll hpositioned
  have hvalues := values_performAll actions (start name parameters)
  obtain ⟨hname, hparameters, hslots, hcount, hlength⟩ := performAll_frame actions (start name parameters)
  rw [hperform] at hrecords hvalues hname hparameters hslots hcount hlength
  obtain rfl : b.name = name := hname
  obtain rfl : b.parameters = parameters := hparameters
  change Records (instructionsOf b.parameters.length actions)
    (terminatorsOf b.parameters.length actions) b at hrecords
  dsimp only [start] at hvalues hslots hcount
  have hnumber : b.valueCount = b.parameters.length + values.length := by
    rw [hcount, hvalues, List.length_map, List.length_range']
  have hcases := hrecords.finish_cases
  refine ⟨⟨hlength, hrecords.named.labels, b.exists_freshLabel_eq⟩, ⟨hvalues, fun value => ?_⟩, ?_,
    fun f hf => ?_, fun error herror => ?_⟩
  · have hmem : value ∈ values ↔ b.parameters.length ≤ value.index ∧ value.index < b.valueCount := by
      rw [hvalues, hcount, List.mem_map]
      refine ⟨?_, fun hrange => ⟨value.index, List.mem_range'_1.2 hrange, rfl⟩⟩
      rintro ⟨index, hindex, rfl⟩
      exact List.mem_range'_1.1 hindex
    simp only [hmem]
    exact hrecords.named.destinations value
  · rcases hcases with ⟨error, hfinish, hcomplaint⟩ | ⟨hfinish, hone⟩
    · obtain ⟨i, hlt, hne⟩ := hcomplaint.exists_length_ne_one
      rw [List.length_map] at hlt
      refine ⟨fun ⟨f, hf⟩ => ?_, fun hone => (hne (hone i hlt)).elim⟩
      rw [hfinish] at hf
      cases hf
    · exact ⟨fun _ => hone, fun _ => ⟨_, hfinish⟩⟩
  · rcases hcases with ⟨error, hfinish, -⟩ | ⟨hfinish, hone⟩
    · rw [hfinish] at hf
      cases hf
    · rw [hfinish, Except.ok.injEq] at hf
      refine ⟨?_, fun i block hblock => ⟨hrecords.instructions hblock, ?_⟩⟩
      · rw [← hf, body, hslots, hnumber, List.nil_append]
      · obtain ⟨terminator, hreceived⟩ :=
          List.length_eq_one_iff.1 (hone i (List.getElem?_eq_some_iff.1 hblock).1)
        rw [hrecords.terminator hblock, hreceived]
        rfl
  · rcases hcases with ⟨other, hfinish, hcomplaint⟩ | ⟨hfinish, -⟩
    · rw [hfinish, Except.error.injEq] at herror
      exact herror ▸ hcomplaint
    · rw [hfinish] at herror
      cases herror

/-- A history that terminates the second block twice and never terminates the third one. -/
def hasty : List Action :=
  [.appendBlock "entry", .appendBlock "entry1", .assign (.arithmetic .add ⟨0⟩ ⟨0⟩),
    .terminate (.branch ⟨1⟩), .moveTo ⟨1⟩, .terminate (.ret ⟨1⟩), .store ⟨0⟩ ⟨1⟩,
    .terminate (.ret ⟨0⟩)]

/-- The complaint is about the second block, whose label was made different from that of the first
one. -/
theorem hasty_complaint :
    Positioned 1 hasty ∧ ((start "f" ["x"]).performAll hasty).1 = [⟨1⟩] ∧
      ((start "f" ["x"]).performAll hasty).2.finish = .error (.multipleTerminators "entry1" "f") := by
  have hpositioned : Positioned 1 hasty := by simp [hasty, Positioned, Action.Within, Action.addsBlock]
  have hlabels : ((start "f" ["x"]).performAll hasty).2.blocks.map Block.label =
      ["entry", "entry1", "entry11"] := by decide +kernel
  rcases hperform : (start "f" ["x"]).performAll hasty with ⟨values, b⟩
  rw [hperform] at hlabels
  obtain ⟨⟨hlength, -⟩, ⟨hvalues, -⟩, hok, -, herror⟩ := history_kept hpositioned hperform
  refine ⟨hpositioned, hvalues, ?_⟩
  cases hfinish : b.finish with
  | ok f =>
    have honce := hok.1 ⟨f, hfinish⟩ ⟨1⟩ (hlength ▸ by decide)
    cases honce
  | error error =>
    have hcomplaint := herror error hfinish
    rw [hlabels] at hcomplaint
    cases hcomplaint with
    | @multiple i label hrepeated hlabel =>
      have htwice : 2 ≤ [(⟨0⟩ : BlockId), ⟨1⟩, ⟨1⟩].count i := hrepeated.two_le_count
      obtain ⟨index⟩ := i
      match index with
      | 1 =>
        cases hlabel
        rfl
      | 0 => exact absurd htwice (by decide)
      | index + 2 => cases htwice
    | missing hnodup => exact absurd hnodup (by decide)

end Kaleidoscope.Ssa.Builder
