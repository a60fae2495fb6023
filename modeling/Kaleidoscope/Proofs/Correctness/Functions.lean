import Kaleidoscope.Proofs.Correctness.Expressions

/-!
# Calls do what definitions mean

A frame that begins a function copies the parameters into slots, and from there on it agrees with an
evaluation in the cells of the parameters. Calls are realized by induction on how many of them may
still be nested: the body of a callee makes calls that are nested one deeper.
-/

namespace Kaleidoscope

open Evaluation
open Machine (Frame Suspended Value)
open Ssa (Builder Program ValueId)
open Ssa.Builder (Advances)

/-- A function begins where its builder began, with the arguments in the first registers. -/
theorem Machine.Frame.at_start {final : Builder} {name : String} {parameters : List String}
    (hgrows : (Builder.start name parameters).Grows final) (function : String)
    (arguments : List Float) :
    ∃ f, Frame.start function final.body arguments = .ok f ∧
      f.At final (.start name parameters) ∧
      ∀ (i : Nat) (x : Float), i < parameters.length → arguments[i]? = some x →
        f.Holds ⟨i⟩ (.number x) := by
  obtain ⟨entry, hentry, -⟩ := hgrows.blocks (i := 0) rfl
  obtain ⟨others, hblocks⟩ : ∃ others, final.blocks = entry :: others := by
    cases hb : final.blocks with
    | nil => simp [hb] at hentry
    | cons first others =>
      simp only [hb, List.getElem?_cons_zero, Option.some.injEq] at hentry
      exact ⟨others, by rw [hentry]⟩
  refine ⟨_, by simp only [Frame.start, Builder.body, hblocks]; rfl, ?_, ?_⟩
  · exact ⟨by simp only [Builder.body, hblocks], rfl, Array.size_ofFn, Array.size_replicate,
      hentry, _, rfl, rfl⟩
  · intro i x hi hx
    have hlt : i < final.valueCount := Nat.lt_of_lt_of_le hi hgrows.valueCount
    simp [Frame.Holds, hlt, hx]

namespace Lowering

variable {m : Machine} {p : Program} {rounds : Nat} {final : Builder} {callers : List Suspended}
  {call : Caller} {env : Surroundings} {s t : State} {layout : Layout} {f : Frame}
  {cells : List Cell}

/-- Parameters are copied into cells of their own. -/
theorem reaches_bindParameters (m : Machine) (p : Program) (callers : List Suspended) {index : Nat}
    {names : List String} {values : List Float}
    (h : Yields (bindParameters index names) s () t) (hgrows : t.builder.Grows final)
    (hagrees : Agrees final layout s.builder s.scope f cells)
    (hlength : names.length = values.length)
    (hvalues : ∀ (i : Nat) (x : Float), values[i]? = some x →
      f.Holds ⟨index + i⟩ (.number x)) :
    ∃ g inner, Reaches m p ⟨f, callers⟩ ⟨g, callers⟩ ∧
      Agrees final inner t.builder t.scope g (cellsOf names values ++ cells) := by
  induction names generalizing s f cells layout index values with
  | nil =>
    obtain ⟨-, rfl⟩ := yields_pure.1 h
    exact ⟨f, layout, .refl m p _, hagrees⟩
  | cons name rest ih =>
    cases values with
    | nil => cases hlength
    | cons x values =>
      have hrest := yields_bindParameters_cons h
      have hintroduced := (Advances.refl hagrees.isOpen).introduce name ⟨index⟩
      have hfinal := (continues_bindParameters hrest hintroduced.isOpen).grows.trans hgrows
      obtain ⟨g, hreaches, hg, hregisters⟩ :=
        hagrees.introduce m p callers name hfinal (hvalues 0 x rfl)
      obtain ⟨last, inner, hreaches', hlast⟩ := ih hrest hg (Nat.succ.inj hlength)
        fun i y hy => (by
          have hnext := hvalues (i + 1) y hy
          rw [Nat.add_comm i 1, ← Nat.add_assoc] at hnext
          exact hnext.congr hregisters)
      refine ⟨last, inner, hreaches.trans hreaches', ?_⟩
      simpa only [cellsOf, List.zipWith_cons_cons, List.reverse_cons, List.append_assoc,
        List.singleton_append] using hlast

/-- A function that has been called with as many arguments as it has parameters comes to its return
with the value that its body has in the cells of the parameters. -/
theorem realizes_function {body : Expr} {depth : Nat}
    (hcalls : RealizesCalls m p rounds depth call)
    (h : Yields (function env body) (.start env.self) () t) (name : String) {arguments : List Float}
    (hlength : env.self.arity = arguments.length) :
    ∃ frame, Frame.start name t.builder.body arguments = .ok frame ∧
      ∀ (callers : List Suspended) (memory : Memory), callers.length = depth →
        Realizes m p rounds ⟨frame, callers⟩ memory
          (withCells (cellsOf env.self.parameters arguments) (evaluate rounds call body))
          fun x cells last => cells = memory.cells ∧
            m.step p last = ⟨.giveBack x callers, none⟩ := by
  obtain ⟨bound, v, u, hbind, hbody, rfl⟩ := yields_function h
  have hbound := continues_bindParameters hbind (Builder.fresh_start _ _).isOpen
  have hu := (computes_expression env body).continues hbody hbound.isOpen
  have hend := Builder.Grows.refl (u.builder.terminate (.ret v))
  have huFinal := (Builder.grows_terminate hu.isOpen _).trans hend
  have hboundFinal := hu.grows.trans huFinal
  obtain ⟨f, hstart, hat, hvalues⟩ :=
    Frame.at_start (hbound.grows.trans hboundFinal) name arguments
  have hnamed : Layout.Named [] (.start env.self.name env.self.parameters) Scope.empty.enter :=
    ⟨fun _ => rfl, List.nodup_nil, by simp⟩
  refine ⟨f, hstart, fun callers memory hdepth => ?_⟩
  subst hdepth
  obtain ⟨g, layout, hreaches, hg⟩ := reaches_bindParameters m p callers hbind hboundFinal
    ⟨(Builder.fresh_start _ _).isOpen, hat, hnamed, .nil⟩ hlength fun i x hx => by
      rw [Nat.zero_add]
      refine hvalues i x ?_ hx
      rw [← Prototype.arity, hlength]
      exact (List.getElem?_eq_some_iff.mp hx).1
  rw [List.append_nil] at hg
  refine .of_reaches hreaches (.withCells ?_)
  refine (implements_expression hcalls env body hbody huFinal hg).mono ?_
  rintro x _ _ ⟨last, rfl, hlast, hx, -⟩
  exact ⟨rfl, hlast.position.step_ret m p callers hend hx⟩

end Lowering

/-- The body, with its number of parameters, has been generated for the definition. -/
def Definition.Generates (d : Definition) (found : Nat × Ssa.Body) : Prop :=
  ∃ program prototypes lowered, lower ⟨d.prototype, program, prototypes⟩ d.body = .ok lowered ∧
    found.1 = d.prototype.arity ∧ lowered.function.body = some found.2

/-- The program has a body for every definition, and no other ones. -/
def Represents (p : Program) (definitions : Definitions) : Prop :=
  ∀ name, Option.Rel Definition.Generates (definitions name) (Machine.bodyOf? p name)

/-- What becomes of a call when its callee is entered: it fails, or a native function is called, or
a frame begins that comes to its return with the value of the call. -/
def EntersAs (m : Machine) (p : Program) (rounds depth : Nat) (evaluation : Evaluation Float) :
    Except Machine.RuntimeError Machine.Entry → Prop
  | .error e => evaluation = throw (.failed e)
  | .ok (.returned x call) => evaluation = do record call; return x
  | .ok (.invoked frame) => ∀ (callers : List Suspended) (memory : Memory), callers.length = depth →
    Realizes m p rounds ⟨frame, callers⟩ memory evaluation fun x cells last =>
      cells = memory.cells ∧ m.step p last = ⟨.giveBack x callers, none⟩

/-- Calls are realized where their callees can be entered. -/
theorem realizesCalls_of_entersAs {m : Machine} {p : Program} {rounds depth : Nat} {call : Caller}
    (h : ∀ callee values, EntersAs m p rounds (depth + 1) (call callee values)
      (m.enter p (depth + 1) callee values)) : RealizesCalls m p rounds depth call := by
  intro f callers rest target callee arguments values memory hdepth hpending hvalues htarget
  obtain ⟨after, hafter⟩ : ∃ after : Float → Frame, ∀ x,
      ({ f with pending := rest } : Frame).assign target (.number x) = .ok (after x) :=
    ⟨_, fun x => Frame.assign_eq (f := { f with pending := rest }) htarget (.number x)⟩
  have hnumbers : arguments.mapM ({ f with pending := rest } : Frame).number = .ok values := hvalues
  have hentry := h callee values
  cases henter : m.enter p (depth + 1) callee values with
  | error e =>
    rw [henter] at hentry
    rw [show call callee values = throw (.failed e) from hentry]
    refine .of_failed ?_
    rw [Machine.step, hpending]
    simp only [Machine.stepCall, hnumbers, hdepth, henter]
  | ok entry =>
    rw [henter] at hentry
    cases entry with
    | returned x native =>
      rw [show call callee values = do record native; return x from hentry]
      have hstep : m.step p ⟨f, callers⟩ = ⟨.running ⟨after x, callers⟩, some native⟩ := by
        rw [Machine.step, hpending]
        simp only [Machine.stepCall, hnumbers, hdepth, henter, hafter, Machine.Status.goOn]
      exact .of_native hstep ⟨rfl, after x, hafter x, rfl⟩
    | invoked frame =>
      have hstep : m.step p ⟨f, callers⟩ =
          ⟨.running ⟨frame, ⟨{ f with pending := rest }, target⟩ :: callers⟩, none⟩ := by
        rw [Machine.step, hpending]
        simp only [Machine.stepCall, hnumbers, hdepth, henter]
      have hlength : (⟨{ f with pending := rest }, target⟩ :: callers : List Suspended).length =
          depth + 1 := congrArg Nat.succ hdepth
      refine .step hstep ((hentry _ memory hlength).then_reaches ?_)
      rintro x cells last ⟨rfl, hlast⟩
      refine ⟨⟨after x, callers⟩, .of_step ?_, rfl, after x, hafter x, rfl⟩
      rw [hlast]
      simp only [Machine.Status.giveBack, hafter, Machine.Status.goOn]

namespace Represents

variable {m : Machine} {p : Program} {definitions : Definitions} {rounds : Nat} {name : String}

/-- A function without definition has no body. -/
theorem bodyOf_eq_none (h : Represents p definitions) (hname : definitions name = none) :
    Machine.bodyOf? p name = none := by
  have hrel := h name
  rw [hname] at hrel
  cases hbody : Machine.bodyOf? p name with
  | none => rfl
  | some found =>
    rw [hbody] at hrel
    cases hrel

/-- A function with a definition has the body that has been generated for it. -/
theorem bodyOf_eq_some (h : Represents p definitions) {d : Definition}
    (hname : definitions name = some d) :
    ∃ env t, env.self = d.prototype ∧
      Lowering.Yields (Lowering.function env d.body) (.start env.self) () t ∧
      Machine.bodyOf? p name = some (d.prototype.arity, t.builder.body) := by
  have hrel := h name
  rw [hname] at hrel
  cases hbody : Machine.bodyOf? p name with
  | none =>
    rw [hbody] at hrel
    cases hrel
  | some found =>
    rw [hbody] at hrel
    obtain ⟨arity, body⟩ := found
    cases hrel with
    | some hgenerates =>
      obtain ⟨program, prototypes, lowered, hlower, harity, hlowered⟩ := hgenerates
      obtain ⟨t, hyields, rfl⟩ := lower_eq_ok_iff.1 hlower
      obtain rfl : t.builder.body = body := Option.some.inj hlowered
      obtain rfl : arity = d.prototype.arity := harity
      exact ⟨_, t, rfl, hyields, rfl⟩

/-- A callee is entered. Its own calls are nested one deeper. -/
theorem entersAs (m : Machine) (rounds : Nat) (h : Represents p definitions) {left depth : Nat}
    (hleft : m.limit - depth = left)
    (hcalls : ∀ fewer, left = fewer + 1 →
      RealizesCalls m p rounds depth (definitions.invoke m rounds fewer))
    (name : String) (values : List Float) :
    EntersAs m p rounds depth (definitions.invoke m rounds left name values)
      (m.enter p depth name values) := by
  cases left with
  | zero =>
    rw [Machine.enter, if_pos (by omega), Definitions.invoke]
    rfl
  | succ fewer =>
    rw [Machine.enter, if_neg (by omega), Definitions.invoke]
    cases hname : definitions name with
    | some d =>
      obtain ⟨env, t, hself, hyields, hbody⟩ := h.bodyOf_eq_some hname
      simp only [hbody, Machine.checkArity]
      by_cases harity : d.prototype.arity = values.length
      · rw [← hself] at harity
        obtain ⟨frame, hstart, hframe⟩ :=
          Lowering.realizes_function (hcalls fewer rfl) hyields name harity
        simp only [← hself, if_pos harity, hstart]
        exact hframe
      · simp only [if_neg harity]
        rfl
    | none =>
      simp only [h.bodyOf_eq_none hname]
      cases m.natives.lookup name with
      | none => rfl
      | some native =>
        simp only [Machine.checkArity]
        by_cases harity : native.arity = values.length
        · simp only [if_pos harity]
          rfl
        · simp only [if_neg harity]
          rfl

/-- Calls are realized, however many of them may still be nested. -/
theorem realizesCalls (h : Represents p definitions) {left depth : Nat}
    (hleft : m.limit - (depth + 1) = left) :
    RealizesCalls m p rounds depth (definitions.invoke m rounds left) := by
  induction left generalizing depth with
  | zero => exact realizesCalls_of_entersAs (h.entersAs m rounds hleft (fun _ hfewer => by cases hfewer))
  | succ left ih =>
    refine realizesCalls_of_entersAs (h.entersAs m rounds hleft fun fewer hfewer => ?_)
    obtain rfl := Nat.succ.inj hfewer
    exact ih (by omega)

end Represents

end Kaleidoscope
