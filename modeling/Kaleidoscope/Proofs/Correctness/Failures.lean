import Kaleidoscope.Proofs.Correctness.Programs
import Kaleidoscope.Proofs.Lowering.Calls
import Kaleidoscope.Proofs.Lowering.Errors

/-!
# Why calls fail

Evaluation by itself does not fail; only calls do. If the calls in all definitions have as many
operands as their callees have parameters, then no call has the wrong number of arguments, and what
is left are calls that are nested too deeply and calls of functions that nobody implements.
-/

namespace Kaleidoscope

open Machine (Native RuntimeError)

namespace Evaluation

variable {α β : Type} {P : RuntimeError → Prop} {rounds : Nat} {call : Caller}

/-- If the evaluation has a value, the value has the property `post`; if it fails, the failure has
the property `P`. -/
def Fares (P : RuntimeError → Prop) (action : Evaluation α) (post : α → Prop) : Prop :=
  ∀ memory result after, action.run.run memory = some (result, after) →
    (∀ a, result = .ok a → post a) ∧ ∀ e, result = .error (.failed e) → P e

/-- Evaluations in a row fare as the first one does and then as the next one does with its value. -/
theorem Fares.bind {action : Evaluation α} {next : α → Evaluation β} {post : α → Prop}
    {post' : β → Prop} (h : Fares P action post) (hnext : ∀ a, post a → Fares P (next a) post') :
    Fares P (action >>= next) post' := by
  intro memory result after hrun
  rw [Realizes.run_bind] at hrun
  cases haction : action.run.run memory with
  | none =>
    rw [haction] at hrun
    cases hrun
  | some outcome =>
    obtain ⟨first, between⟩ := outcome
    obtain ⟨hvalue, hfailure⟩ := h memory first between haction
    rw [haction] at hrun
    cases first with
    | error stop =>
      cases hrun
      exact ⟨nofun, fun e he => hfailure e (congrArg _ (Except.error.inj he))⟩
    | ok a => exact hnext a (hvalue a rfl) between result after hrun

/-- A value fares well. -/
theorem fares_pure {a : α} {post : α → Prop} (h : post a) : Fares P (pure a) post := by
  intro memory result after hrun
  cases hrun
  exact ⟨fun b hb => Except.ok.inj hb ▸ h, nofun⟩

/-- A failure of a call fares as the failure says. -/
theorem fares_failed {e : RuntimeError} {post : α → Prop} (h : P e) :
    Fares P (throw (.failed e) : Evaluation α) post := by
  intro memory result after hrun
  cases hrun
  exact ⟨nofun, fun e' he => by cases he; exact h⟩

/-- What has no meaning is no failure of a call. -/
theorem fares_meaningless {post : α → Prop} :
    Fares P (throw .meaningless : Evaluation α) post := by
  intro memory result after hrun
  cases hrun
  exact ⟨nofun, nofun⟩

/-- Looking at the memory does not fail. -/
theorem fares_get : Fares P (get : Evaluation Memory) fun _ => True := by
  intro memory result after hrun
  cases hrun
  exact ⟨fun _ _ => trivial, nofun⟩

/-- Nor does changing the memory. -/
theorem fares_modify (f : Memory → Memory) :
    Fares P (modify f : Evaluation Unit) fun _ => True := by
  intro memory result after hrun
  cases hrun
  exact ⟨fun _ _ => trivial, nofun⟩

/-- Nor does reading a variable, unless it is unknown and the evaluation has no meaning. -/
theorem fares_read (name : String) : Fares P (read name) fun _ => True := by
  refine fares_get.bind fun memory _ => ?_
  split
  · exact fares_pure trivial
  · exact fares_meaningless

/-- Nor does assigning to a variable. -/
theorem fares_write (name : String) (x : Float) : Fares P (write name x) fun _ => True := by
  refine fares_get.bind fun memory _ => ?_
  split
  · exact fares_modify _
  · exact fares_meaningless

/-- A scope of its own does not change how an evaluation fares. -/
theorem Fares.inScope {action : Evaluation α} {post : α → Prop} (h : Fares P action post) :
    Fares P (inScope action) post :=
  fares_get.bind fun _ _ => h.bind fun _ ha => (fares_modify _).bind fun _ _ => fares_pure ha

/-- Nor do cells of its own. -/
theorem Fares.withCells {action : Evaluation α} {post : α → Prop} (h : Fares P action post)
    (cells : List Cell) : Fares P (withCells cells action) post :=
  fares_get.bind fun _ _ => (fares_modify _).bind fun _ _ => h.bind fun _ ha =>
    (fares_modify _).bind fun _ _ => fares_pure ha

/-- A loop fares as its rounds do. -/
theorem Fares.repeatWhile {round : Evaluation Bool} (h : Fares P round fun _ => True)
    (rounds : Nat) : Fares P (repeatWhile round rounds) fun _ => True := by
  induction rounds with
  | zero => exact nofun
  | succ rounds ih =>
    refine h.bind fun again _ => ?_
    split
    · exact ih
    · exact fares_pure trivial

/-- Arguments fare as each of them does, and have as many values. -/
theorem fares_evaluateAll {arguments : List Expr}
    (h : ∀ e ∈ arguments, Fares P (evaluate rounds call e) fun _ => True) :
    Fares P (evaluateAll rounds call arguments) fun xs => xs.length = arguments.length := by
  induction arguments with
  | nil => exact fares_pure rfl
  | cons first rest ih =>
    obtain ⟨hfirst, hrest⟩ := List.forall_mem_cons.1 h
    exact hfirst.bind fun _ _ => (ih hrest).bind fun _ hlength =>
      fares_pure (congrArg Nat.succ hlength)

/-- An optional part fares as its expression does. -/
theorem fares_evaluateOr {otherwise : Float} {e : Option Expr}
    (h : ∀ e' ∈ e, Fares P (evaluate rounds call e') fun _ => True) :
    Fares P (evaluateOr rounds call otherwise e) fun _ => True := by
  cases e with
  | none => exact fares_pure trivial
  | some e => exact h e rfl

/-- Local variables fare as their initial values do. -/
theorem fares_bindAll {bindings : List (String × Option Expr)}
    (h : ∀ binding ∈ bindings, ∀ e ∈ binding.2, Fares P (evaluate rounds call e) fun _ => True) :
    Fares P (bindAll rounds call bindings) fun _ => True := by
  induction bindings with
  | nil => exact fares_pure trivial
  | cons binding rest ih =>
    obtain ⟨hfirst, hrest⟩ := List.forall_mem_cons.1 h
    exact (fares_evaluateOr hfirst).bind fun _ _ => (fares_modify _).bind fun _ _ => ih hrest

/-- A binary operator fails only as the call of its function does. -/
theorem fares_apply {arity : String → Nat → Prop}
    (hcall : ∀ callee xs, arity callee xs.length → Fares P (call callee xs) fun _ => True)
    {operator : Char} (hassign : operator ≠ '=')
    (h : OperatorTable.isBuiltin operator ∨ arity (Prototype.binaryName operator) 2) {x y : Float} :
    Fares P (apply call operator x y) fun _ => True := by
  unfold apply
  split
  · exact fares_pure trivial
  · exact fares_pure trivial
  · exact fares_pure trivial
  · exact fares_pure trivial
  · rename_i hplus hminus htimes hless
    have hbuiltin := OperatorTable.not_isBuiltin hassign hplus hminus htimes hless
    exact hcall _ [x, y] (h.resolve_left hbuiltin)

/-- An expression fails only as the calls do that its nodes mean. -/
theorem fares_evaluate {arity : String → Nat → Prop}
    (hcall : ∀ callee xs, arity callee xs.length → Fares P (call callee xs) fun _ => True)
    {e : Expr} (h : e.Every (Expr.Fits arity)) :
    Fares P (evaluate rounds call e) fun _ => True := by
  induction h with
  | number => exact fares_pure trivial
  | var => exact fares_read _
  | unary h _ ih => exact ih.bind fun x _ => hcall _ [x] h
  | binary h _ _ ihl ihr =>
    simp only [evaluate]
    split
    · split
      · exact ihr.bind fun _ _ => (fares_write _ _).bind fun _ _ => fares_pure trivial
      · exact fares_meaningless
    · rename_i hassign
      exact ihl.bind fun _ _ => ihr.bind fun _ _ => fares_apply hcall hassign h
  | call h _ ih =>
    refine (fares_evaluateAll ih).bind fun xs hlength => hcall _ xs ?_
    rw [hlength]
    exact h
  | conditional _ _ _ _ ihc iht ihe =>
    refine ihc.bind fun x _ => ?_
    split
    · exact iht
    · exact ihe
  | loop _ _ _ _ _ ihs ihf ihstep ihb =>
    refine ihs.bind fun _ _ => (Fares.inScope ?_).bind fun _ (_ : True) => fares_pure trivial
    refine (fares_modify _).bind fun _ _ => Fares.repeatWhile ?_ rounds
    exact ihb.bind fun _ _ => (fares_evaluateOr ihstep).bind fun _ _ => (fares_read _).bind fun _ _ =>
      (fares_write _ _).bind fun _ _ => ihf.bind fun _ _ => fares_pure trivial
  | locals _ _ _ ihs ihb => exact ((fares_bindAll ihs).bind fun _ _ => ihb).inScope

end Evaluation

/-- There is a signature of that name with so many parameters. -/
def Signed (signatures : List Prototype) (name : String) (n : Nat) : Prop :=
  ∃ p ∈ signatures, p.name = name ∧ p.arity = n

/-- A name has one number of parameters in all signatures, and the native function of that name, if
there is one, has it too. -/
structure Agreed (m : Machine) (signatures : List Prototype) : Prop where
  arity : ∀ p ∈ signatures, ∀ q ∈ signatures, p.name = q.name → p.arity = q.arity
  native : ∀ p ∈ signatures, ∀ native, m.natives.lookup p.name = some native →
    native.arity = p.arity

/-- The calls in the definitions fit the signatures. -/
structure Definitions.Fit (definitions : Definitions) (signatures : List Prototype) : Prop where
  signed : ∀ {name d}, definitions name = some d → d.prototype.name = name ∧
    d.prototype ∈ signatures
  body : ∀ {name d}, definitions name = some d → d.body.Every (Expr.Fits (Signed signatures))

/-- The failures that are nobody's fault: calls are nested too deeply, or a function is implemented
neither by a definition nor by the machine. -/
inductive Definitions.Unavoidable (m : Machine) (definitions : Definitions) : RuntimeError → Prop
  | callDepth : Unavoidable m definitions (.callDepth m.limit)
  | unresolved {name : String} : definitions name = none → m.natives.lookup name = none →
      Unavoidable m definitions (.unresolved name)

namespace Definitions

open Evaluation

variable {m : Machine} {definitions : Definitions} {signatures : List Prototype}

/-- A call that fits fails unavoidably at most. -/
theorem fares_invoke (hagreed : Agreed m signatures) (hfit : definitions.Fit signatures)
    (rounds depth : Nat) {name : String} {arguments : List Float}
    (hsigned : Signed signatures name arguments.length) :
    Fares (Unavoidable m definitions) (definitions.invoke m rounds depth name arguments)
      fun _ => True := by
  induction depth generalizing name arguments with
  | zero => exact fares_failed .callDepth
  | succ depth ih =>
    obtain ⟨p, hp, rfl, harity⟩ := hsigned
    rw [invoke]
    cases hname : definitions p.name with
    | some d =>
      obtain ⟨hd, hmem⟩ := hfit.signed hname
      have hlength : d.prototype.arity = arguments.length :=
        (hagreed.arity _ hmem _ hp hd).trans harity
      dsimp only
      rw [if_pos hlength]
      exact (fares_evaluate (fun callee xs => ih) (hfit.body hname)).withCells _
    | none =>
      cases hnative : m.natives.lookup p.name with
      | some native =>
        dsimp only
        rw [if_pos ((hagreed.native p hp native hnative).trans harity)]
        exact (fares_modify _).bind fun _ _ => fares_pure trivial
      | none => exact fares_failed (.unresolved hname hnative)

end Definitions

/-- A call from outside that fits fails unavoidably at most, in a program whose functions have the
code of their definitions. -/
theorem Represents.unavoidable {p : Ssa.Program} {m : Machine} {definitions : Definitions}
    {signatures : List Prototype} (h : Represents p definitions) (hagreed : Agreed m signatures)
    (hfit : definitions.Fit signatures) {fuel : Nat} {name : String} {arguments : List Float}
    (hsigned : Signed signatures name arguments.length) {run : Machine.Run} {e : RuntimeError}
    (hrun : m.call p fuel name arguments = some run) (he : run.result = .error e) :
    definitions.Unavoidable m e := by
  obtain ⟨rounds, hcall⟩ := (h.call_iff m name arguments run).1 ⟨fuel, hrun⟩
  obtain ⟨⟨result, after⟩, hinvoke, heq⟩ := Option.map_eq_some_iff.1 hcall
  have hfares := Definitions.fares_invoke hagreed hfit rounds m.limit hsigned _ _ _ hinvoke
  refine hfares.2 e ?_
  rw [he] at heq
  exact congrArg Prod.fst heq

end Kaleidoscope
