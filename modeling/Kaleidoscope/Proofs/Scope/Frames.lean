import Kaleidoscope.Scope

/-!
# Scopes are a stack of frames

Think of every open scope as a frame that holds what was bound in it, the newest binding first. What
is kept is no such stack but one flat table with a list of what to take back. The frames that are
open nevertheless determine it, since leaving a scope gives back what was there before, entry for
entry, and so every question about it is answered by the frames.
-/

namespace Kaleidoscope.Scope

open Ssa (SlotId)

/-- The inner scopes are the outer ones with one more scope open, in which names may be bound. -/
structure Inside (outer inner : Scope) : Prop where
  marks : inner.marks = outer.hidden.length :: outer.marks
  length_le : outer.hidden.length ≤ inner.hidden.length
  unwind : unwind outer.hidden.length inner.active inner.hidden = (outer.active, outer.hidden)

/-- Nothing needs to be taken back to get where one is. -/
theorem unwind_length (active : Dictionary String SlotId)
    (hidden : List (String × Option SlotId)) :
    unwind hidden.length active hidden = (active, hidden) := by
  cases hidden with
  | nil => rfl
  | cons newest older => simp [Scope.unwind]

/-- A scope that has just been entered is inside. -/
theorem inside_enter (s : Scope) : Inside s s.enter :=
  ⟨rfl, Nat.le_refl _, unwind_length s.active s.hidden⟩

/-- Binding a name does not lead outside. -/
theorem Inside.bind {outer inner : Scope} (h : Inside outer inner) (name : String) (slot : SlotId) :
    Inside outer (inner.bind name slot) := by
  refine ⟨h.marks, Nat.le_succ_of_le h.length_le, ?_⟩
  rw [← h.unwind]
  have hle := h.length_le
  simp only [Scope.bind, Scope.unwind, if_neg (show ¬ inner.hidden.length < outer.hidden.length by omega),
    Dictionary.restore_insert]

/-- Leaving the inner scope gives the outer ones back. -/
theorem Inside.exit {outer inner : Scope} (h : Inside outer inner) : inner.exit = outer := by
  simp only [Scope.exit, h.marks, h.unwind]

/-- What can be done with scopes. -/
inductive Action where
  | enter
  | bind (name : String) (slot : SlotId)
  | exit

namespace Action

/-- Names are bound only if one of the `depth` open scopes can hold the binding. -/
def Allowed (depth : Nat) : Action → Prop
  | bind .. => 0 < depth
  | _ => True

/-- How many scopes are open afterwards. -/
def depthAfter (depth : Nat) : Action → Nat
  | enter => depth + 1
  | bind .. => depth
  | exit => depth - 1

end Action

/-- No name is bound outside of all scopes, if `depth` scopes are open at first. -/
def BindsInside (depth : Nat) : List Action → Prop
  | [] => True
  | action :: actions => action.Allowed depth ∧ BindsInside (action.depthAfter depth) actions

/-- Every scope that is entered is left again, and no other one is left. -/
inductive Balanced : List Action → Prop where
  | nil : Balanced []
  | bind (name : String) (slot : SlotId) {later : List Action} :
    Balanced later → Balanced (.bind name slot :: later)
  | scope {within later : List Action} : Balanced within → Balanced later →
    Balanced (.enter :: (within ++ .exit :: later))

/-- Do one thing. -/
def perform (s : Scope) : Action → Scope
  | .enter => s.enter
  | .bind name slot => s.bind name slot
  | .exit => s.exit

/-- Do one thing after the other. -/
def performAll (s : Scope) (actions : List Action) : Scope := actions.foldl perform s

/-- Whatever is entered and left in between, one stays inside. -/
theorem Balanced.inside {actions : List Action} (h : Balanced actions) {outer s : Scope}
    (hs : Inside outer s) : Inside outer (s.performAll actions) := by
  induction h generalizing outer s with
  | nil => exact hs
  | bind name slot _ ih => exact ih (hs.bind name slot)
  | @scope within later _ _ ihwithin ihlater =>
    -- What happens within stays inside the scope that is entered here, so leaving it leads back to
    -- here.
    have hback : (s.enter.performAll within).exit = s := (ihwithin s.inside_enter).exit
    have hperform : s.performAll (.enter :: (within ++ .exit :: later)) =
        (s.enter.performAll within).exit.performAll later := List.foldl_append
    rw [hperform, hback]
    exact ihlater hs

/-- What is done in a scope of its own is undone when it is left. -/
theorem Balanced.performAll_eq {actions : List Action} (h : Balanced actions) (s : Scope) :
    s.performAll (.enter :: (actions ++ [.exit])) = s := by
  have hperform : s.performAll (.enter :: (actions ++ [.exit])) = (s.enter.performAll actions).exit :=
    List.foldl_append
  rw [hperform]
  exact (h.inside s.inside_enter).exit

/-- What was bound in each open scope, the newest binding first and the innermost scope first. -/
abbrev Frames := List (List (String × SlotId))

namespace Frames

/-- Do one thing. A binding goes to the innermost frame. -/
def perform (frames : Frames) : Action → Frames
  | .enter => [] :: frames
  | .bind name slot => frames.modifyHead ((name, slot) :: ·)
  | .exit => frames.tail

/-- Do one thing after the other. -/
def performAll (frames : Frames) (actions : List Action) : Frames := actions.foldl perform frames

/-- The newest binding of a name in the innermost frame that has one. -/
def lookup (frames : Frames) (name : String) : Option SlotId := frames.findSome? (·.lookup name)

/-- As many frames are open as scopes. -/
theorem length_perform (frames : Frames) (action : Action) :
    (frames.perform action).length = action.depthAfter frames.length := by
  cases action with
  | enter => rfl
  | bind name slot => exact List.length_modifyHead
  | exit => exact List.length_tail

end Frames

/-- The scopes in which the frames are filled, the outermost first and each from its oldest binding
on. -/
def ofFrames : Frames → Scope
  | [] => empty
  | frame :: outer => frame.foldr (fun binding s => s.bind binding.1 binding.2) (ofFrames outer).enter

/-- The innermost frame is inside the others. -/
theorem inside_ofFrames (frame : List (String × SlotId)) (outer : Frames) :
    Inside (ofFrames outer) (ofFrames (frame :: outer)) := by
  induction frame with
  | nil => exact inside_enter (ofFrames outer)
  | cons binding older ih => exact ih.bind binding.1 binding.2

/-- Scopes that are given by frames do what the frames do. -/
theorem perform_ofFrames {frames : Frames} {action : Action} (h : action.Allowed frames.length) :
    (ofFrames frames).perform action = ofFrames (frames.perform action) := by
  cases action with
  | enter => rfl
  | bind name slot =>
    cases frames with
    | nil => exact absurd h (Nat.lt_irrefl 0)
    | cons frame outer => rfl
  | exit =>
    cases frames with
    | nil => rfl
    | cons frame outer => exact (inside_ofFrames frame outer).exit

/-- Whatever is done, the scopes are given by the frames that are open then. -/
theorem performAll_ofFrames {frames : Frames} {actions : List Action}
    (h : BindsInside frames.length actions) :
    (ofFrames frames).performAll actions = ofFrames (frames.performAll actions) := by
  induction actions generalizing frames with
  | nil => rfl
  | cons action actions ih =>
    obtain ⟨hallowed, hlater⟩ := h
    rw [← frames.length_perform] at hlater
    rw [performAll, List.foldl_cons, perform_ofFrames hallowed]
    exact ih hlater

/-- A binding decides what its name stands for, and nothing else. -/
theorem lookup_bind (s : Scope) (name : String) (slot : SlotId) (other : String) :
    (s.bind name slot).lookup other = if name = other then some slot else s.lookup other :=
  Dictionary.lookup_insert s.active name other slot

/-- What a name stands for is what the frames say. -/
theorem lookup_ofFrames (frames : Frames) (name : String) :
    (ofFrames frames).lookup name = frames.lookup name := by
  induction frames with
  | nil => rfl
  | cons frame outer ih =>
    rw [Frames.lookup, List.findSome?_cons]
    induction frame with
    | nil => exact ih
    | cons binding older iholder =>
      rw [ofFrames, List.foldr_cons, lookup_bind, List.lookup_cons]
      by_cases h : binding.1 = name
      · simp [h]
      · rw [if_neg h, beq_false_of_ne (Ne.symm h)]
        exact iholder

/-- No variable is in scope if nothing is bound in any frame. -/
theorem isEmpty_ofFrames (frames : Frames) :
    (ofFrames frames).isEmpty = true ↔ ∀ frame ∈ frames, frame = [] := by
  induction frames with
  | nil => simp [ofFrames, isEmpty, empty, Dictionary.empty]
  | cons frame outer ih =>
    rw [List.forall_mem_cons, ← ih]
    cases frame with
    | nil => simp [ofFrames, isEmpty, enter]
    | cons binding older => simp [ofFrames, isEmpty, bind]

/-- Whatever is entered, bound and left, as long as no name is bound outside of all scopes, a name
stands for its newest binding in the innermost scope that is still open and has one, and no variable
is in scope exactly if none of the open scopes has a binding. What happens between entering a scope
and leaving it leaves no trace. -/
theorem answers_as_frames {actions : List Action} (h : BindsInside 0 actions) :
    (∀ name, (empty.performAll actions).lookup name = (Frames.performAll [] actions).lookup name) ∧
    ((empty.performAll actions).isEmpty = true ↔
      ∀ frame ∈ Frames.performAll [] actions, frame = []) ∧
    ∀ within, Balanced within →
      (empty.performAll actions).performAll (.enter :: (within ++ [.exit])) =
        empty.performAll actions := by
  have hframes : empty.performAll actions = ofFrames (Frames.performAll [] actions) :=
    @performAll_ofFrames [] actions h
  refine ⟨fun name => ?_, ?_, fun within hwithin => hwithin.performAll_eq _⟩
  · rw [hframes, lookup_ofFrames]
  · rw [hframes, isEmpty_ofFrames]

/-- At first a scope is left though none is open. Then a name is bound in a scope, and twice in one
inside. -/
def shadowing : List Action :=
  [.exit, .enter, .bind "x" ⟨0⟩, .enter, .bind "x" ⟨1⟩, .bind "y" ⟨2⟩, .bind "x" ⟨3⟩]

/-- The last binding counts until its scope is left, and then the one outside again. -/
theorem shadowing_answers :
    BindsInside 0 shadowing ∧ (empty.performAll shadowing).lookup "x" = some ⟨3⟩ ∧
      (empty.performAll shadowing).performAll [.enter, .bind "y" ⟨4⟩, .enter, .exit, .exit] =
        empty.performAll shadowing ∧
      BindsInside 0 (shadowing ++ [.exit]) ∧
      (empty.performAll (shadowing ++ [.exit])).lookup "x" = some ⟨0⟩ ∧
      (empty.performAll (shadowing ++ [.exit])).lookup "y" = none ∧
      (empty.performAll (shadowing ++ [.exit])).isEmpty = false := by
  have hinside : BindsInside 0 shadowing := by
    simp [shadowing, BindsInside, Action.Allowed, Action.depthAfter]
  have houtside : BindsInside 0 (shadowing ++ [.exit]) := by
    simp [shadowing, BindsInside, Action.Allowed, Action.depthAfter]
  obtain ⟨hlookup, -, hback⟩ := answers_as_frames hinside
  obtain ⟨houter, hempty, -⟩ := answers_as_frames houtside
  refine ⟨hinside, (hlookup "x").trans (by decide), hback _ (.bind _ _ (.scope .nil .nil)), houtside,
    (houter "x").trans (by decide), (houter "y").trans (by decide), ?_⟩
  rw [Bool.eq_false_iff, Ne, hempty]
  decide

end Kaleidoscope.Scope
