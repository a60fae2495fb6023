import Kaleidoscope.Proofs.Evaluation
import Kaleidoscope.Proofs.Machine.Runs

/-!
# The machine realizes evaluations

A machine realizes an evaluation if the two agree on how it ends. Where the evaluation gives a value
the machine gets to a state that suits it; where it stops the machine stops alike; and where the
rounds are not enough the machine is still running after as many steps. The last part is what makes
a loop without end here a loop without end there.
-/

namespace Kaleidoscope

open Machine (NativeCall Run RuntimeError)
open Ssa (Program)

/-- From `state` the machine does what `action` does on `memory`; a value leaves it in a state that
`post` relates to the value and the variables. -/
def Realizes (m : Machine) (p : Program) (rounds : Nat) (state : Machine.State) (memory : Memory)
    {α : Type} (action : Evaluation α) (post : α → List Cell → Machine.State → Prop) : Prop :=
  match action.run.run memory with
  | none => m.runFrom p rounds state memory.natives = none
  | some (.error (.failed e), after) =>
    ∃ steps, m.runFrom p steps state memory.natives = some ⟨.error e, after.natives.reverse⟩
  | some (.error .meaningless, _) => False
  | some (.ok a, after) =>
    ∃ steps next, (∀ fuel, m.runFrom p (fuel + steps) state memory.natives =
      m.runFrom p fuel next after.natives) ∧ post a after.cells next

/-- The machine gets from one state to another without calling a native function. -/
def Reaches (m : Machine) (p : Program) (state next : Machine.State) : Prop :=
  ∃ steps, ∀ fuel natives, m.runFrom p (fuel + steps) state natives = m.runFrom p fuel next natives

namespace Reaches

variable {m : Machine} {p : Program} {state next last : Machine.State}

/-- A step that calls no native function gets the machine on. -/
theorem of_step (hstep : m.step p state = ⟨.running next, none⟩) : Reaches m p state next :=
  ⟨1, Machine.runFrom_succ_of_running hstep⟩

/-- The machine is where it is. -/
theorem refl (m : Machine) (p : Program) (state : Machine.State) : Reaches m p state state :=
  ⟨0, fun _ _ => rfl⟩

/-- The machine gets on from where it has got to. -/
theorem trans (h : Reaches m p state next) (hnext : Reaches m p next last) :
    Reaches m p state last := by
  obtain ⟨steps, hsteps⟩ := h
  obtain ⟨steps', hsteps'⟩ := hnext
  refine ⟨steps' + steps, fun fuel natives => ?_⟩
  rw [← Nat.add_assoc, hsteps, hsteps']

end Reaches

namespace Realizes

variable {m : Machine} {p : Program} {rounds : Nat} {state next : Machine.State} {memory : Memory}
  {α β : Type} {action : Evaluation α} {post : α → List Cell → Machine.State → Prop}

/-- How the evaluation of two actions ends. -/
theorem run_bind (action : Evaluation α) (f : α → Evaluation β) (memory : Memory) :
    (action >>= f).run.run memory =
      match action.run.run memory with
      | none => none
      | some (.error e, after) => some (.error e, after)
      | some (.ok a, after) => (f a).run.run after := by
  rw [ExceptT.run_bind, StateT.run_bind]
  cases action.run.run memory with
  | none => rfl
  | some result =>
    obtain ⟨result, after⟩ := result
    cases result <;> rfl

/-- An evaluation that does nothing is realized where it has its value. -/
theorem pure {a : α} (h : post a memory.cells state) :
    Realizes m p rounds state memory (Pure.pure a) post :=
  ⟨0, state, fun _ => rfl, h⟩

/-- A realization goes on where the one before it ended. -/
theorem bind {f : α → Evaluation β} {post' : β → List Cell → Machine.State → Prop}
    (h : Realizes m p rounds state memory action post)
    (hf : ∀ a after next, post a after.cells next → Realizes m p rounds next after (f a) post') :
    Realizes m p rounds state memory (action >>= f) post' := by
  unfold Realizes at h ⊢
  rw [run_bind]
  cases haction : action.run.run memory with
  | none =>
    rw [haction] at h
    exact h
  | some result =>
    obtain ⟨result, after⟩ := result
    rw [haction] at h
    cases result with
    | error stop =>
      cases stop with
      | failed e => exact h
      | meaningless => exact h
    | ok a =>
      obtain ⟨steps, next, hsteps, hpost⟩ := h
      have hnext := hf a after next hpost
      unfold Realizes at hnext
      cases hfa : (f a).run.run after with
      | none =>
        rw [hfa] at hnext
        simp only [hfa]
        have hnone : m.runFrom p (rounds + steps) state memory.natives = none := by
          rw [hsteps]; exact hnext
        exact Machine.runFrom_eq_none_of_le hnone (Nat.le_add_right _ _)
      | some result' =>
        obtain ⟨result', after'⟩ := result'
        rw [hfa] at hnext
        simp only [hfa]
        cases result' with
        | error stop =>
          cases stop with
          | failed e =>
            obtain ⟨steps', hend⟩ := hnext
            exact ⟨steps' + steps, by rw [hsteps]; exact hend⟩
          | meaningless => exact hnext
        | ok b =>
          obtain ⟨steps', last, hsteps', hlast⟩ := hnext
          refine ⟨steps' + steps, last, fun fuel => ?_, hlast⟩
          rw [← Nat.add_assoc, hsteps, hsteps']

/-- What is true of the end may be weakened. -/
theorem mono {post' : α → List Cell → Machine.State → Prop}
    (h : Realizes m p rounds state memory action post)
    (hpost : ∀ a cells next, post a cells next → post' a cells next) :
    Realizes m p rounds state memory action post' := by
  unfold Realizes at h ⊢
  split <;> simp_all only
  obtain ⟨steps, next, hsteps, h⟩ := h
  exact ⟨steps, next, hsteps, hpost _ _ _ h⟩

/-- With fewer rounds to be matched less is to be shown. -/
theorem of_le {fewer : Nat} (h : Realizes m p rounds state memory action post)
    (hle : fewer ≤ rounds) : Realizes m p fewer state memory action post := by
  unfold Realizes at h ⊢
  split <;> simp_all only
  exact Machine.runFrom_eq_none_of_le h hle

/-- A step of the machine counts for a round, and for nothing else. -/
theorem of_step (hstep : m.step p state = ⟨.running next, none⟩)
    (h : Realizes m p rounds next memory action post) :
    Realizes m p (rounds + 1) state memory action post := by
  unfold Realizes at h ⊢
  have hrun := fun fuel => Machine.runFrom_succ_of_running hstep fuel memory.natives
  split <;> simp_all only
  · exact hrun rounds ▸ h
  · obtain ⟨steps, hend⟩ := h
    exact ⟨steps + 1, (hrun steps).trans hend⟩
  · obtain ⟨steps, last, hsteps, hpost⟩ := h
    exact ⟨steps + 1, last, fun fuel => (hrun (fuel + steps)).trans (hsteps fuel), hpost⟩

/-- A step of the machine that calls no native function may come first. -/
theorem step (hstep : m.step p state = ⟨.running next, none⟩)
    (h : Realizes m p rounds next memory action post) :
    Realizes m p rounds state memory action post :=
  (of_step hstep h).of_le (Nat.le_succ _)

/-- Whatever the machine gets to by itself may come first. -/
theorem of_reaches (hreaches : Reaches m p state next)
    (h : Realizes m p rounds next memory action post) :
    Realizes m p rounds state memory action post := by
  obtain ⟨steps, hsteps⟩ := hreaches
  unfold Realizes at h ⊢
  split <;> simp_all only
  · have hnone : m.runFrom p (rounds + steps) state memory.natives = none :=
      (hsteps rounds memory.natives).trans h
    exact Machine.runFrom_eq_none_of_le hnone (Nat.le_add_right _ _)
  · obtain ⟨steps', hend⟩ := h
    exact ⟨steps' + steps, (hsteps steps' memory.natives).trans hend⟩
  · obtain ⟨steps', last, hsteps', hpost⟩ := h
    refine ⟨steps' + steps, last, fun fuel => ?_, hpost⟩
    rw [← Nat.add_assoc, hsteps, hsteps']

/-- What the machine gets to by itself may come last. -/
theorem then_reaches {post' : α → List Cell → Machine.State → Prop}
    (h : Realizes m p rounds state memory action post)
    (hpost : ∀ a cells next, post a cells next → ∃ last, Reaches m p next last ∧
      post' a cells last) : Realizes m p rounds state memory action post' := by
  unfold Realizes at h ⊢
  split <;> simp_all only
  obtain ⟨steps, next, hsteps, h⟩ := h
  obtain ⟨last, ⟨steps', hsteps'⟩, hlast⟩ := hpost _ _ _ h
  refine ⟨steps' + steps, last, fun fuel => ?_, hlast⟩
  rw [← Nat.add_assoc, hsteps, hsteps']

/-- An evaluation that changes no more than variables is realized where its value suits. -/
theorem of_run {a : α} {cells : List Cell}
    (hrun : action.run.run memory = some (.ok a, { memory with cells := cells }))
    (h : post a cells state) : Realizes m p rounds state memory action post := by
  unfold Realizes
  rw [hrun]
  exact ⟨0, state, fun _ => rfl, h⟩

/-- An evaluation that changes no more than variables may come first. -/
theorem bind_of_run {a : α} {cells : List Cell} {f : α → Evaluation β}
    {post : β → List Cell → Machine.State → Prop}
    (hrun : action.run.run memory = some (.ok a, { memory with cells := cells }))
    (h : Realizes m p rounds state { memory with cells := cells } (f a) post) :
    Realizes m p rounds state memory (action >>= f) post := by
  unfold Realizes at h ⊢
  rw [run_bind, hrun]
  exact h

/-- A failure is realized where the machine fails alike. -/
theorem of_failed {e : RuntimeError} (hstep : m.step p state = ⟨.finished (.error e), none⟩) :
    Realizes m p rounds state memory (throw (.failed e) : Evaluation α) post :=
  ⟨1, Machine.runFrom_succ_of_finished hstep 0 memory.natives⟩

/-- The call of a native function is realized by a step that records it. -/
theorem of_native {a : α} {call : NativeCall} (hstep : m.step p state = ⟨.running next, some call⟩)
    (h : post a memory.cells next) :
    Realizes m p rounds state memory (do Evaluation.record call; return a) post :=
  ⟨1, next, fun fuel => Machine.runFrom_succ_of_running hstep fuel memory.natives, h⟩

/-- Evaluation in a scope of its own drops the variables that have been added. -/
theorem inScope (post : α → List Cell → Machine.State → Prop)
    (h : Realizes m p rounds state memory action fun a cells next =>
      post a (cells.drop (cells.length - memory.cells.length)) next) :
    Realizes m p rounds state memory (Evaluation.inScope action) post :=
  bind_of_run (a := memory) rfl
    (h.bind fun _ _ _ hpost => bind_of_run (a := ()) rfl (pure hpost))

/-- Evaluation with other variables leaves those that were there before. -/
theorem withCells {cells : List Cell}
    (h : Realizes m p rounds state { memory with cells := cells } action fun a _ next =>
      post a memory.cells next) :
    Realizes m p rounds state memory (Evaluation.withCells cells action) post :=
  bind_of_run (a := memory) rfl <| bind_of_run (a := ()) rfl <|
    h.bind fun _ _ _ hpost => bind_of_run (a := ()) rfl (pure hpost)

/-- A loop is realized if each round is, and if a step from its end leads to the next round or out
of the loop. The steps in between are the rounds. -/
theorem repeatWhile {round : Evaluation Bool} (start : List Cell → Machine.State → Prop)
    {post : Unit → List Cell → Machine.State → Prop}
    (hround : ∀ memory state, start memory.cells state →
      Realizes m p rounds state memory round fun again cells last =>
        ∃ next, m.step p last = ⟨.running next, none⟩ ∧
          if again then start cells next else post () cells next)
    {count : Nat} (hcount : count ≤ rounds) (h : start memory.cells state) :
    Realizes m p count state memory (Evaluation.repeatWhile round count) post := by
  induction count generalizing state memory with
  | zero => rfl
  | succ count ih =>
    refine ((hround memory state h).of_le hcount).bind ?_
    rintro again after last ⟨next, hstep, hnext⟩
    cases again with
    | false => exact .step hstep (.pure hnext)
    | true => exact .of_step hstep (ih (Nat.le_of_succ_le hcount) hnext)

end Realizes

namespace Evaluation

/-- Looking at the memory. -/
theorem run_get (memory : Memory) :
    (get : Evaluation Memory).run.run memory = some (.ok memory, memory) := rfl

/-- Reading a variable that has a cell. -/
theorem run_read {name : String} {x : Float} {memory : Memory}
    (h : readIn name memory.cells = some x) :
    (read name).run.run memory = some (.ok x, memory) := by
  simp only [read, Realizes.run_bind, run_get, h]
  rfl

/-- Assigning to a variable that has a cell. -/
theorem run_write {name : String} {x : Float} {memory : Memory} {cells : List Cell}
    (h : writeIn name x memory.cells = some cells) :
    (write name x).run.run memory = some (.ok (), { memory with cells := cells }) := by
  simp only [write, Realizes.run_bind, run_get, h]
  rfl

/-- A new variable. -/
theorem run_introduce (name : String) (x : Float) (memory : Memory) :
    (introduce name x).run.run memory =
      some (.ok (), { memory with cells := ⟨name, x⟩ :: memory.cells }) := rfl

end Evaluation

end Kaleidoscope
