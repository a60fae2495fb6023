import Kaleidoscope.Proofs.Lowering.Constructs
import Kaleidoscope.Proofs.Lowering.Errors

/-!
# Generated bodies are well-formed

Each variable in scope has been written before control gets to where the builder stands, so it can
be loaded there. With that, generating an expression is a construct that ends with a number,
whichever way it is nested, and the body of a function is complete when the last block returns.
-/

namespace Kaleidoscope

/-- A new variable has a slot of its own. -/
theorem Ssa.Builder.length_slots_introduce (b : Ssa.Builder) (name : String) (value : Ssa.ValueId) :
    (b.introduce name value).slots.length = b.slots.length + 1 :=
  List.length_append

namespace Lowering

open Ssa (Builder SlotId ValueId)
open Ssa.Builder (Builds Region Steady)

variable {env : Surroundings} {s t : State} {W waiting : List Ssa.BlockId} {v : ValueId}

/-- Every variable in scope has been written. -/
def Written (s : State) : Prop :=
  ∀ name slot, s.scope.lookup name = some slot →
    slot.index < s.builder.slots.length ∧ s.builder.HasStored slot

/-- What had been written before a construct has been written in it and after it. -/
theorem Written.of_region (h : Written s) (hs : Steady W s.builder)
    (hregion : Region waiting s.builder t.builder)
    (hscope : ∀ name, t.scope.lookup name = s.scope.lookup name) : Written t := by
  intro name slot hlookup
  rw [hscope] at hlookup
  obtain ⟨hlt, hstored⟩ := h name slot hlookup
  exact ⟨Nat.lt_of_lt_of_le hlt hregion.grows.slots.length_le, hregion.hasStored hs hstored⟩

/-- A new variable has been written before it is in scope. -/
theorem Written.introduce (h : Written s) (hs : Steady W s.builder) (name : String)
    (hvalue : s.builder.Has (v, .number)) :
    Written { s with
      builder := s.builder.introduce name v
      scope := s.scope.bind name ⟨s.builder.slots.length⟩ } := by
  obtain ⟨hbuilds, hstored⟩ := hs.introduce name hvalue
  have hlength := s.builder.length_slots_introduce name v
  intro other slot hlookup
  have hbind : (s.scope.bind name ⟨s.builder.slots.length⟩).lookup other =
      if name = other then some ⟨s.builder.slots.length⟩ else s.scope.lookup other :=
    Dictionary.lookup_insert ..
  rw [hbind] at hlookup
  split at hlookup
  · cases hlookup
    exact ⟨hlength ▸ Nat.lt_succ_self _, hstored⟩
  · obtain ⟨hlt, hother⟩ := h other slot hlookup
    exact ⟨hlength ▸ Nat.lt_succ_of_lt hlt, hbuilds.hasStored hother⟩

/-- An action that is a construct and gives a number, if the variables in scope have been
written. -/
def Produces (action : Lowering ValueId) : Prop :=
  ∀ {W s t v}, Yields action s v t → Steady W s.builder → Written s →
    Builds W s.builder t.builder ∧ t.builder.Has (v, .number) ∧ Written t

/-- The variables in scope stay written if the scope stays the same. -/
theorem produces_of_keepsScope {action : Lowering ValueId} (hkeeps : KeepsScope action)
    (h : ∀ {W s t v}, Yields action s v t → Steady W s.builder → Written s →
      Builds W s.builder t.builder ∧ t.builder.Has (v, .number)) : Produces action := by
  intro W s t v hyields hs hwritten
  obtain ⟨hbuilds, hhas⟩ := h hyields hs hwritten
  exact ⟨hbuilds, hhas, hwritten.of_region hs hbuilds.region fun name => by
    rw [hyields.scope_eq hkeeps]⟩

/-- A binary operator produces a number from two numbers. -/
theorem produces_applyBinary {s t : State} {operator : Char} {x y v : ValueId}
    (h : Yields (applyBinary env operator x y) s v t) (hs : Steady W s.builder)
    (hx : s.builder.Has (x, .number)) (hy : s.builder.Has (y, .number)) :
    Builds W s.builder t.builder ∧ t.builder.Has (v, .number) := by
  unfold applyBinary at h
  split at h
  · obtain ⟨rfl, rfl⟩ := yields_build.1 h
    exact @Steady.combine _ _ hs (.arithmetic .add x y) _ _ rfl hx hy
  · obtain ⟨rfl, rfl⟩ := yields_build.1 h
    exact @Steady.combine _ _ hs (.arithmetic .subtract x y) _ _ rfl hx hy
  · obtain ⟨rfl, rfl⟩ := yields_build.1 h
    exact @Steady.combine _ _ hs (.arithmetic .multiply x y) _ _ rfl hx hy
  · obtain ⟨less, u, hless, h⟩ := yields_bind.1 h
    obtain ⟨rfl, rfl⟩ := yields_build.1 hless
    obtain ⟨rfl, rfl⟩ := yields_build.1 h
    obtain ⟨hcompare, htruth⟩ := @Steady.combine _ _ hs (.compare .unorderedOrLess x y) _ _ rfl hx hy
    obtain ⟨hwiden, hnumber⟩ := hcompare.steady.widen htruth
    exact ⟨hcompare.trans hwiden, hnumber⟩
  · obtain ⟨-, rfl, rfl⟩ := yields_callBinary h
    exact hs.call _ (List.forall_mem_cons.2 ⟨hx, List.forall_mem_cons.2 ⟨hy, nofun⟩⟩)

/-- An optional part produces a number if its expression does. -/
theorem produces_expressionOr {constant : Float} {e : Option Expr}
    (h : ∀ e' ∈ e, Produces (expression env e')) : Produces (expressionOr env constant e) := by
  cases e with
  | none =>
    rw [expressionOr]
    refine produces_of_keepsScope (fun _ => rfl) fun hyields hs _ => ?_
    obtain ⟨rfl, rfl⟩ := yields_build.1 hyields
    exact hs.constant constant
  | some e => exact h e rfl

/-- Expressions in a row produce numbers if each of them does. -/
theorem produces_expressions {arguments : List Expr}
    (harguments : ∀ e ∈ arguments, Produces (expression env e)) {values : List ValueId}
    (h : Yields (expressions env arguments) s values t) (hs : Steady W s.builder)
    (hwritten : Written s) :
    Builds W s.builder t.builder ∧ (∀ v ∈ values, t.builder.Has (v, .number)) ∧ Written t := by
  induction arguments generalizing s values with
  | nil =>
    obtain ⟨rfl, rfl⟩ := yields_pure.1 h
    exact ⟨.refl hs, nofun, hwritten⟩
  | cons first rest ih =>
    obtain ⟨v, u, vs, rfl, hfirst, hrest⟩ := yields_expressions_cons h
    obtain ⟨hproduces, hproducesRest⟩ := List.forall_mem_cons.1 harguments
    obtain ⟨hu, hv, hwritten'⟩ := hproduces hfirst hs hwritten
    obtain ⟨ht, hvs, hwritten''⟩ := ih hproducesRest hrest hu.steady hwritten'
    exact ⟨hu.trans ht, List.forall_mem_cons.2 ⟨ht.has hv, hvs⟩, hwritten''⟩

/-- Local variables are written before they are read. -/
theorem produces_bindLocals {bindings : List (String × Option Expr)}
    (hbindings : ∀ binding ∈ bindings, ∀ e ∈ binding.2, Produces (expression env e))
    (h : Yields (bindLocals env bindings) s () t) (hs : Steady W s.builder)
    (hwritten : Written s) : Builds W s.builder t.builder ∧ Written t := by
  induction bindings generalizing s with
  | nil =>
    obtain ⟨-, rfl⟩ := yields_pure.1 h
    exact ⟨.refl hs, hwritten⟩
  | cons binding rest ih =>
    obtain ⟨name, initial⟩ := binding
    obtain ⟨value, u, hvalue, hrest⟩ := yields_bindLocals_cons h
    obtain ⟨hproduces, hproducesRest⟩ := List.forall_mem_cons.1 hbindings
    obtain ⟨hu, hv, hwritten'⟩ := produces_expressionOr hproduces hvalue hs hwritten
    obtain ⟨hintroduced, -⟩ := hu.steady.introduce name hv
    obtain ⟨ht, hwritten''⟩ := ih hproducesRest hrest hintroduced.steady
      (hwritten'.introduce hu.steady name hv)
    exact ⟨(hu.trans hintroduced).trans ht, hwritten''⟩

/-- A parameter is a number from the beginning. -/
theorem produces_bindParameters {index : Nat} {names : List String}
    (h : Yields (bindParameters index names) s () t)
    (hnames : index + names.length ≤ s.builder.parameters.length) (hs : Steady W s.builder)
    (hwritten : Written s) : Builds W s.builder t.builder ∧ Written t := by
  induction names generalizing s index with
  | nil =>
    obtain ⟨-, rfl⟩ := yields_pure.1 h
    exact ⟨.refl hs, hwritten⟩
  | cons name rest ih =>
    rw [List.length_cons] at hnames
    have hvalue : s.builder.Has (⟨index⟩, .number) := .inl ⟨by dsimp only; omega, rfl⟩
    obtain ⟨hintroduced, -⟩ := hs.introduce name hvalue
    have hrest : index + 1 + rest.length ≤
        (s.builder.introduce name ⟨index⟩).parameters.length := by
      rw [hintroduced.region.grows.parameters]
      omega
    obtain ⟨ht, hwritten'⟩ := ih (yields_bindParameters_cons h) hrest hintroduced.steady
      (hwritten.introduce hs name hvalue)
    exact ⟨hintroduced.trans ht, hwritten'⟩

/-- A round of a loop is a construct that computes a truth value: its variable has been written
before. -/
theorem builds_round {body finish : Expr} {step : Option Expr} {slot : SlotId} {x y z : ValueId}
    {a b c : State} (hbody : Produces (expression env body))
    (hstep : ∀ e ∈ step, Produces (expression env e)) (hfinish : Produces (expression env finish))
    (hx : Yields (expression env body) s x a) (hy : Yields (expressionOr env 1 step) a y b)
    (hz : Yields (expression env finish) { b with builder := b.builder.increase slot y } z c)
    (hs : Steady W s.builder) (hwritten : Written s) (hslot : slot.index < s.builder.slots.length)
    (hstored : s.builder.HasStored slot) :
    Builds W s.builder (c.builder.test z).2 ∧
      (c.builder.test z).2.Has ((c.builder.test z).1, .truth) := by
  obtain ⟨ha, -, hwritten⟩ := hbody hx hs hwritten
  obtain ⟨hb, hincrement, hwritten⟩ := produces_expressionOr hstep hy ha.steady hwritten
  have hab := ha.trans hb
  have hincreased := hb.steady.increase (hab.hasStored hstored)
    (Nat.lt_of_lt_of_le hslot hab.region.grows.slots.length_le) hincrement
  obtain ⟨hc, hvalue, -⟩ := hfinish hz hincreased.steady
    (hwritten.of_region hb.steady hincreased.region fun _ => rfl)
  obtain ⟨hchecked, hholds⟩ := hc.steady.test hvalue
  exact ⟨((hab.trans hincreased).trans hc).trans hchecked, hholds⟩

/-- Every expression is a construct that gives a number. -/
theorem produces_expression (env : Surroundings) (e : Expr) : Produces (expression env e) := by
  induction e with
  | number value =>
    refine produces_of_keepsScope (keepsScope_expression env _) fun h hs _ => ?_
    obtain ⟨rfl, rfl⟩ := yields_number.1 h
    exact hs.constant value
  | var name =>
    refine produces_of_keepsScope (keepsScope_expression env _) fun h hs hwritten => ?_
    obtain ⟨slot, hslot, rfl, rfl⟩ := yields_var.1 h
    obtain ⟨hlt, hstored⟩ := hwritten name slot hslot
    exact hs.load hstored hlt
  | unary operator operand ih =>
    refine produces_of_keepsScope (keepsScope_expression env _) fun h hs hwritten => ?_
    obtain ⟨value, u, hoperand, -, rfl, rfl⟩ := yields_unary h
    obtain ⟨hu, hvalue, -⟩ := ih hoperand hs hwritten
    obtain ⟨hcall, hhas⟩ := @Steady.call _ _ hu.steady (Prototype.unaryName operator) [value]
      (List.forall_mem_cons.2 ⟨hvalue, nofun⟩)
    exact ⟨hu.trans hcall, hhas⟩
  | binary operator left right ihl ihr =>
    refine produces_of_keepsScope (keepsScope_expression env _) fun h hs hwritten => ?_
    by_cases hop : operator = '='
    · subst hop
      obtain ⟨name, slot, u, -, hright, hlookup, rfl⟩ := yields_assignment h
      obtain ⟨hu, hv, hwritten'⟩ := ihr hright hs hwritten
      obtain ⟨hstore, -⟩ := hu.steady.store hv (hwritten' name slot hlookup).1
      exact ⟨hu.trans hstore, hstore.has hv⟩
    · obtain ⟨x, a, y, b, hleft, hright, happly⟩ := yields_binary hop h
      obtain ⟨ha, hx, hwritten'⟩ := ihl hleft hs hwritten
      obtain ⟨hb, hy, -⟩ := ihr hright ha.steady hwritten'
      obtain ⟨ht, hv⟩ := produces_applyBinary happly hb.steady (hb.has hx) hy
      exact ⟨(ha.trans hb).trans ht, hv⟩
  | call callee arguments ih =>
    refine produces_of_keepsScope (keepsScope_expression env _) fun h hs hwritten => ?_
    obtain ⟨values, u, harguments, -, rfl, rfl⟩ := yields_application h
    obtain ⟨hu, hvalues, -⟩ := produces_expressions ih harguments hs hwritten
    obtain ⟨hcall, hhas⟩ := hu.steady.call callee hvalues
    exact ⟨hu.trans hcall, hhas⟩
  | conditional test consequent alternative ihc iht ihe =>
    refine produces_of_keepsScope (keepsScope_expression env _) fun h hs hwritten => ?_
    obtain ⟨value, tested, x, left, y, right, htest, hleft, hright, rfl, rfl⟩ :=
      yields_conditional h
    obtain ⟨htested, hvalue, hwritten⟩ := ihc htest hs hwritten
    obtain ⟨hchecked, hholds⟩ := htested.steady.test hvalue
    have hwritten : Written { tested with builder := (tested.builder.test value).2 } :=
      hwritten.of_region htested.steady hchecked.region fun _ => rfl
    have hthen := Region.enter_then hchecked.steady.isOpen (tested.builder.test value).1
    obtain ⟨hleft', hx, -⟩ := iht hleft (hchecked.steady.enter_then hholds)
      (hwritten.of_region hchecked.steady hthen fun _ => rfl)
    have helse := Region.enter_else hchecked.steady.isOpen hleft'.region
    obtain ⟨hright', hy, -⟩ := ihe hright (hchecked.steady.enter_else hleft')
      (hwritten.of_region hchecked.steady helse fun _ => by
        rw [hleft.scope_eq (keepsScope_expression env _)])
    obtain ⟨hjoined, hhas⟩ := hchecked.steady.conditional hleft' hx hright' hy
    exact ⟨(htested.trans hchecked).trans hjoined, hhas⟩
  | loop name start finish step body ihs ihf ihstep ihb =>
    refine produces_of_keepsScope (keepsScope_expression env _) fun h hs hwritten => ?_
    obtain ⟨value, started, x, a, y, b, z, c, hstart, hx, hy, hz, rfl, rfl⟩ := yields_loop h
    obtain ⟨hstarted, hvalue, hwritten⟩ := ihs hstart hs hwritten
    obtain ⟨hintroduced, hslot⟩ := hstarted.steady.introduce name hvalue
    have hwritten := hwritten.introduce hstarted.steady name hvalue
    have hloop := Region.enter_loop hintroduced.steady.isOpen
    have hlt : started.builder.slots.length <
        (started.builder.introduce name value).enterLoop.slots.length :=
      Nat.lt_of_lt_of_eq (Nat.lt_succ_self _) (started.builder.length_slots_introduce name value).symm
    obtain ⟨hround, hholds⟩ := builds_round ihb ihstep ihf hx hy hz hintroduced.steady.enter_loop
      (hwritten.of_region hintroduced.steady hloop fun _ => rfl) hlt
      (hloop.hasStored hintroduced.steady hslot)
    have hleft := hintroduced.steady.loop hround hholds
    obtain ⟨hconstant, hhas⟩ := hleft.steady.constant 0
    exact ⟨((hstarted.trans hintroduced).trans hleft).trans hconstant, hhas⟩
  | locals bindings body ihs ihb =>
    refine produces_of_keepsScope (keepsScope_expression env _) fun h hs hwritten => ?_
    obtain ⟨bound, u, hbind, hbody, rfl⟩ := yields_locals h
    obtain ⟨hbound, hwritten'⟩ := produces_bindLocals ihs hbind hs hwritten
    obtain ⟨hu, hv, -⟩ := ihb hbody hbound.steady hwritten'
    exact ⟨hbound.trans hu, hv⟩

/-- A function begins with an empty block, to which nothing leads. -/
theorem steady_start (name : String) (parameters : List String) :
    Steady [] (Builder.start name parameters) := by
  have hinstruction (j : Ssa.BlockId) (l : Nat) :
      Ssa.instructionAt? (Builder.start name parameters).blocks j l = none := by
    cases hj : j.index <;> simp [Ssa.instructionAt?, Builder.start, hj]
  have hterminator (j : Ssa.BlockId) :
      Ssa.terminatorAt? (Builder.start name parameters).blocks j = none := by
    cases hj : j.index <;> simp [Ssa.terminatorAt?, Builder.start, hj]
  refine ⟨(Builder.fresh_start name parameters).isOpen, List.not_mem_nil, List.forall_mem_nil _,
    Builder.named_start name parameters, ?_⟩
  constructor
  case edges =>
    rintro i j ⟨terminator, hmem, -⟩
    rw [hterminator] at hmem
    cases hmem
  case reachable =>
    intro j hj _
    obtain rfl : j = .entry := Ssa.BlockId.eq_of_index (Nat.lt_one_iff.1 hj)
    exact Ssa.reachable_entry _
  case terminators =>
    intro j terminator h
    rw [hterminator] at h
    cases h
  case instructions =>
    intro j l
    simp only [hinstruction, reduceCtorEq, false_implies, implies_true]

/-- A function that passes the final check has no open block. -/
theorem terminated_of_finish {b : Builder} {f : Ssa.Function} (h : b.finish = .ok f) :
    ∀ block ∈ b.blocks, block.terminator.isSome := by
  unfold Builder.finish at h
  split at h
  · cases h
  · split at h
    · cases h
    · rename_i hfind
      intro block hmem
      simpa only [Bool.not_eq_true, Option.isNone_eq_false_iff] using
        List.find?_eq_none.1 hfind block hmem

/-- A function that is generated has a complete body. -/
theorem wellFormed_function {body : Expr} (h : Yields (function env body) (.start env.self) () t) :
    t.builder.body.WellFormed env.self.arity := by
  have hfinish := finish_function h
  obtain ⟨bound, v, u, hbind, hbody, rfl⟩ := yields_function h
  have hstart := steady_start env.self.name env.self.parameters
  obtain ⟨hbound, hwritten⟩ := produces_bindParameters hbind (Nat.le_of_eq (Nat.zero_add _)) hstart
    fun name slot hlookup => by
      cases hlookup
  obtain ⟨hu, hv, -⟩ := produces_expression env body hbody hbound.steady hwritten
  have hbuilds := hbound.trans hu
  have hparameters : u.builder.parameters = env.self.parameters := hbuilds.region.grows.parameters
  have hnamed := Builder.named_terminate hu.steady.named (.ret v)
  have hsound : Ssa.Sound u.builder.parameters.length u.builder.slots.length []
      (u.builder.terminate (.ret v)).blocks :=
    hu.steady.sound_terminate hbuilds.region hstart.isOpen nofun (List.forall_mem_singleton.2 hv) nofun
  rw [hparameters] at hnamed hsound
  have hentry : 0 < (u.builder.terminate (.ret v)).blocks.length := by
    rw [Builder.length_terminate]
    exact Nat.zero_lt_of_lt hu.steady.isOpen.lt_length
  exact ⟨hentry, hnamed, hsound, terminated_of_finish hfinish⟩

end Lowering

/-- A generated function has a well-formed body, and generation never ends with a fault found by the
final check. -/
theorem lower_wellFormed (env : Surroundings) (body : Expr) :
    (∀ lowered, lower env body = .ok lowered →
      ∃ generated, lowered.function.body = some generated ∧
        generated.WellFormed lowered.function.arity) ∧
      ∀ fault, lower env body ≠ .error (.verify fault) := by
  refine ⟨fun lowered h => ?_, fun fault h => ne_verify_of_lower_eq_error h fault rfl⟩
  obtain ⟨t, hyields, rfl⟩ := lower_eq_ok_iff.1 h
  exact ⟨_, rfl, Lowering.wellFormed_function hyields⟩

/-- A result that is a value has a value. -/
theorem exists_eq_ok_of_isOk {ε α : Type} {x : Except ε α} (h : x.isOk) : ∃ a, x = .ok a := by
  cases x with
  | error e => cases h
  | ok a => exact ⟨a, rfl⟩

/-- Any other result has an error. -/
theorem exists_eq_error_of_not_isOk {ε α : Type} {x : Except ε α} (h : ¬ x.isOk) :
    ∃ e, x = .error e := by
  cases x with
  | error e => exact ⟨e, rfl⟩
  | ok a => exact (h rfl).elim

/-- A loop in a branch of a conditional: where the branches meet, the first value comes from the
block behind the loop. -/
theorem nested_wellFormed :
    ∃ lowered, lower ⟨⟨"f", ["x"], .plain⟩, .empty, .empty⟩
        (.conditional (.var "x") (.loop "i" (.var "x") (.var "i") none (.var "i")) (.var "x")) =
        .ok lowered ∧
      ∃ generated, lowered.function.body = some generated ∧
        generated.WellFormed lowered.function.arity := by
  obtain ⟨lowered, h⟩ : ∃ lowered, lower ⟨⟨"f", ["x"], .plain⟩, .empty, .empty⟩
      (.conditional (.var "x") (.loop "i" (.var "x") (.var "i") none (.var "i")) (.var "x")) =
      .ok lowered := exists_eq_ok_of_isOk (by decide +kernel)
  exact ⟨lowered, h, (lower_wellFormed _ _).1 lowered h⟩

end Kaleidoscope
