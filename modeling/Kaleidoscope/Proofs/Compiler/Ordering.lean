import Kaleidoscope.Proofs.Compiler.Lookups
import Kaleidoscope.Proofs.Lowering.Arities

/-!
# Definitions in any order

Functions that have been declared can be defined in any order, even if they call each other. A
definition sees of the others how many parameters they have, and that was known before. So each one
comes to what it would come to if it were the first one, and what is in the program afterwards
depends on which of them have succeeded, not on when.
-/

namespace Kaleidoscope.Compiler

open Ssa (Function Program)

variable {c c' : Compiler} {d : Definition} {ds ds' : List Definition} {name : String}

/-- The function of the definition is in the program already, with as many parameters. -/
def Announced (c : Compiler) (d : Definition) : Prop :=
  ∃ f, c.program.find? d.prototype.name = some f ∧ f.arity = d.prototype.arity

/-- Define functions one after the other. There is one result for each. -/
def defineAll (c : Compiler) : List Definition → List (Except CompileError Function) × Compiler
  | [] => ([], c)
  | d :: rest =>
    let (result, after) := c.define d
    let (results, last) := after.defineAll rest
    (result :: results, last)

/-- The definition succeeds, and its function calls the name. -/
def calls (c : Compiler) (name : String) (d : Definition) : Bool :=
  (c.define d).1.isOk && decide (name ∈ d.body.callees)

/-- The declaration that calls of a name bring into the program if there are any. -/
def brought? (c : Compiler) (name : String) (called : Bool) : Option Function :=
  if called then (c.prototypes.lookup name).map Prototype.declaration else none

/-- A name that the program does not have belongs to no function that has been announced. -/
theorem Announced.ne_of_find?_eq_none (h : c.Announced d) (hfind : c.program.find? name = none) :
    name ≠ d.prototype.name := by
  rintro rfl
  obtain ⟨f, hf, -⟩ := h
  rw [hfind] at hf
  cases hf

/-- Calls from several functions bring in one declaration. -/
theorem brought?_or (c : Compiler) (name : String) (called more : Bool) :
    (c.brought? name called).or (c.brought? name more) = c.brought? name (called || more) := by
  cases called with
  | false => rfl
  | true =>
    rw [Bool.true_or, brought?, if_pos rfl, brought?]
    cases c.prototypes.lookup name with
    | none => exact ite_self _
    | some p => rfl

/-- The result of a definition that is no operator depends on the numbers of parameters only. -/
theorem define_eq_of_arity?_eq (hplain : d.prototype.role = .plain)
    (h : ∀ name, c.arity? name = c'.arity? name) : (c.define d).1 = (c'.define d).1 := by
  have hlower (c : Compiler) :
      (c.define d).1 = (lower (c.surroundings d) d.body).map Lowered.function := by
    have hinstall : installOperator c.operators d.prototype = .ok c.operators := by
      rw [installOperator, hplain]
    obtain ⟨e, herror, -⟩ | ⟨table, e, -, hlower, heq⟩ | ⟨table, lowered, -, hlower, heq⟩ :=
      c.define_cases d
    · rw [hinstall] at herror
      cases herror
    · rw [heq, hlower]
      rfl
    · rw [heq, hlower]
      rfl
  rw [hlower, hlower]
  have hself : (c.surroundings d).self = (c'.surroundings d).self := rfl
  refine lower_eq_of_arity?_eq hself (fun callee => ?_) d.body
  rw [arity?_surroundings, arity?_surroundings, h]

/-- Under another name there is what was there, or a declaration if the new function calls it. -/
theorem Reached.find?_define_of_ne (h : Reached c) (d : Definition)
    (hne : ∀ f, (c.define d).1 = .ok f → name ≠ d.prototype.name) :
    (c.define d).2.program.find? name =
      (c.program.find? name).or (c.brought? name (c.calls name d)) := by
  have hattempt := h.attempt d
  rw [calls]
  generalize (c.define d).1 = result at hattempt hne ⊢
  generalize (c.define d).2 = after at hattempt ⊢
  cases hattempt with
  | refused cause => exact Option.or_none.symm
  | rejected _ hprogram _ =>
    rw [hprogram]
    exact Option.or_none.symm
  | @stored f _ _ _ hfind =>
    rw [hfind, if_neg (hne f rfl), brought?]
    by_cases hmem : name ∈ d.body.callees
    · rw [if_pos hmem, decide_eq_true hmem]
      rfl
    · rw [if_neg hmem, decide_eq_false hmem]
      rfl

/-- What is known by another name is as before. -/
theorem Reached.lookup_define_of_ne (h : Reached c) (d : Definition) (hne : name ≠ d.prototype.name) :
    (c.define d).2.prototypes.lookup name = c.prototypes.lookup name := by
  have hattempt := h.attempt d
  generalize (c.define d).1 = result at hattempt
  generalize (c.define d).2 = after at hattempt ⊢
  cases hattempt with
  | refused cause => rfl
  | rejected _ _ hprototypes =>
    rw [hprototypes]
    exact lookup_insert_of_ne hne
  | stored _ hprototypes _ =>
    rw [hprototypes]
    exact lookup_insert_of_ne hne

/-- A function that succeeds is found under its name. -/
theorem Reached.find?_define_self (h : Reached c) {f : Function} (hf : (c.define d).1 = .ok f) :
    (c.define d).2.program.find? d.prototype.name = some f ∧ f.arity = d.prototype.arity := by
  have hattempt := h.attempt d
  rw [hf] at hattempt
  generalize (c.define d).2 = after at hattempt ⊢
  cases hattempt with
  | stored harity _ hfind =>
    rw [hfind, if_pos rfl]
    exact ⟨rfl, harity⟩

/-- A function that is in the program stays there, with as many parameters. -/
theorem Reached.exists_find?_define (h : Reached c) (hd : c.Announced d) {g : Function}
    (hfind : c.program.find? name = some g) :
    ∃ f, (c.define d).2.program.find? name = some f ∧ f.arity = g.arity := by
  by_cases hne : ∀ f, (c.define d).1 = .ok f → name ≠ d.prototype.name
  · refine ⟨g, ?_, rfl⟩
    rw [h.find?_define_of_ne d hne, hfind, Option.some_or]
  · push Not at hne
    obtain ⟨f, hf, rfl⟩ := hne
    obtain ⟨hself, harity⟩ := h.find?_define_self hf
    obtain ⟨g', hfind', harity'⟩ := hd
    obtain rfl : g = g' := Option.some.inj (hfind.symm.trans hfind')
    exact ⟨f, hself, harity.trans harity'.symm⟩

/-- A definition that has been announced stays so while another one is compiled. -/
theorem Reached.announced_define (h : Reached c) (hd : c.Announced d) {d' : Definition}
    (hd' : c.Announced d') : (c.define d).2.Announced d' := by
  obtain ⟨g, hfind, harity⟩ := hd'
  obtain ⟨f, hfind', harity'⟩ := h.exists_find?_define hd hfind
  exact ⟨f, hfind', harity'.trans harity⟩

/-- Such a definition changes no number of parameters. -/
theorem Reached.arity?_define (h : Reached c) (hd : c.Announced d) (name : String) :
    (c.define d).2.arity? name = c.arity? name := by
  rw [arity?, arity?]
  cases hfind : c.program.find? name with
  | some g =>
    obtain ⟨f, hfind', harity⟩ := h.exists_find?_define hd hfind
    rw [hfind']
    exact congrArg some harity
  | none =>
    have hne := hd.ne_of_find?_eq_none hfind
    rw [h.find?_define_of_ne d fun _ _ => hne, hfind, h.lookup_define_of_ne d hne, Option.none_or,
      brought?]
    split
    · cases c.prototypes.lookup name with
      | none => rfl
      | some p => rfl
    · rfl

/-- What is in the program after several definitions have been tried. It is a matter of what each
one would come to at the start. -/
structure Settled (c : Compiler) (ds : List Definition) (program : Program) : Prop where
  stored : ∀ d ∈ ds, ∀ f, (c.define d).1 = .ok f → program.find? d.prototype.name = some f
  others : ∀ name, (∀ d ∈ ds, ∀ f, (c.define d).1 = .ok f → name ≠ d.prototype.name) →
    program.find? name = (c.program.find? name).or (c.brought? name (ds.any (c.calls name)))

/-- A definition in front of others that come to the same behind it. -/
theorem Reached.settled_cons (h : Reached c) (hd : c.Announced d)
    (hname : d.prototype.name ∉ ds.map fun d => d.prototype.name)
    (hsame : ∀ d' ∈ ds, ((c.define d).2.define d').1 = (c.define d').1) {program : Program}
    (hrest : Settled (c.define d).2 ds program) : Settled c (d :: ds) program where
  stored := by
    refine List.forall_mem_cons.2 ⟨fun f hf => ?_, fun d' hd' f hf => ?_⟩
    · -- None of the others has the name, so the function is left alone.
      have hother : ∀ d' ∈ ds, ∀ g, ((c.define d).2.define d').1 = .ok g →
          d.prototype.name ≠ d'.prototype.name :=
        fun d' hd' _ _ heq => hname (heq ▸ List.mem_map_of_mem hd')
      rw [hrest.others _ hother, (h.find?_define_self hf).1, Option.some_or]
    · exact hrest.stored d' hd' f ((hsame d' hd').trans hf)
  others name hnone := by
    obtain ⟨hfirst, hnone⟩ := List.forall_mem_cons.1 hnone
    have hcalls : ds.any ((c.define d).2.calls name) = ds.any (c.calls name) := by
      rw [Bool.eq_iff_iff, List.any_eq_true, List.any_eq_true]
      refine exists_congr fun d' => and_congr_right fun hd' => ?_
      rw [calls, calls, hsame d' hd']
    rw [hrest.others name fun d' hd' f hf => hnone d' hd' f ((hsame d' hd').symm.trans hf), hcalls,
      h.find?_define_of_ne d hfirst, List.any_cons]
    cases hfind : c.program.find? name with
    | some g => rfl
    | none =>
      have hlookup := h.lookup_define_of_ne d (hd.ne_of_find?_eq_none hfind)
      have hbrought (called : Bool) : (c.define d).2.brought? name called = c.brought? name called := by
        rw [brought?, brought?, hlookup]
      rw [Option.none_or, Option.none_or, hbrought, brought?_or]

/-- Each definition comes to what it would come to at the start. -/
theorem Reached.settled_defineAll (h : Reached c)
    (hnodup : (ds.map fun d => d.prototype.name).Nodup)
    (hplain : ∀ d ∈ ds, d.prototype.role = .plain) (hannounced : ∀ d ∈ ds, c.Announced d) :
    (c.defineAll ds).1 = ds.map (fun d => (c.define d).1) ∧
      Settled c ds (c.defineAll ds).2.program := by
  induction ds generalizing c with
  | nil => exact ⟨rfl, nofun, fun name _ => Option.or_none.symm⟩
  | cons d rest ih =>
    rw [List.map_cons, List.nodup_cons] at hnodup
    obtain ⟨-, hplainRest⟩ := List.forall_mem_cons.1 hplain
    obtain ⟨hd, hrest⟩ := List.forall_mem_cons.1 hannounced
    obtain ⟨hresults, hsettled⟩ := ih (h.define d) hnodup.2 hplainRest
      fun d' hd' => h.announced_define hd (hrest d' hd')
    have hsame (d' : Definition) (hd' : d' ∈ rest) :
        ((c.define d).2.define d').1 = (c.define d').1 :=
      define_eq_of_arity?_eq (hplainRest d' hd') (h.arity?_define hd)
    refine ⟨?_, h.settled_cons hd hnodup.1 hsame hsettled⟩
    change (c.define d).1 :: ((c.define d).2.defineAll rest).1 = _
    rw [hresults, List.map_congr_left hsame, List.map_cons]

/-- What is in the program does not depend on the order. -/
theorem Settled.find?_eq {program program' : Program} (h : Settled c ds program)
    (h' : Settled c ds' program') (hperm : ds.Perm ds') (name : String) :
    program.find? name = program'.find? name := by
  by_cases hnone : ∀ d ∈ ds, ∀ f, (c.define d).1 = .ok f → name ≠ d.prototype.name
  · rw [h.others name hnone, h'.others name fun d hd => hnone d (hperm.mem_iff.2 hd), hperm.any_eq]
  · push Not at hnone
    obtain ⟨d, hd, f, hf, rfl⟩ := hnone
    rw [h.stored d hd f hf, h'.stored d (hperm.mem_iff.1 hd) f hf]

/-- Functions that have been declared can be defined in any order: each definition comes to the same
function or the same error, which is what it comes to at the start, and in the end the program has
the same function under every name. -/
theorem Reached.defineAll_perm (h : Reached c) (hperm : ds.Perm ds')
    (hnodup : (ds.map fun d => d.prototype.name).Nodup)
    (hplain : ∀ d ∈ ds, d.prototype.role = .plain) (hannounced : ∀ d ∈ ds, c.Announced d) :
    (c.defineAll ds).1 = ds.map (fun d => (c.define d).1) ∧
      (c.defineAll ds').1 = ds'.map (fun d => (c.define d).1) ∧
      ∀ name, (c.defineAll ds).2.program.find? name = (c.defineAll ds').2.program.find? name := by
  obtain ⟨hresults, hsettled⟩ := h.settled_defineAll hnodup hplain hannounced
  obtain ⟨hresults', hsettled'⟩ := h.settled_defineAll ((hperm.map _).nodup_iff.1 hnodup)
    (fun d hd => hplain d (hperm.mem_iff.2 hd)) fun d hd => hannounced d (hperm.mem_iff.2 hd)
  exact ⟨hresults, hresults', hsettled.find?_eq hsettled' hperm⟩

/-- Two functions that call each other, and a third one that is rejected. -/
theorem mutual_recursion_in_any_order :
    let signature (name : String) : Prototype := ⟨name, ["n"], .plain⟩
    let recur (name : String) (otherwise : Float) : Expr :=
      .conditional (.var "n") (.call name [.binary '-' (.var "n") (.number 1)]) (.number otherwise)
    let even : Definition := ⟨signature "even", recur "odd" 1⟩
    let odd : Definition := ⟨signature "odd", recur "even" 0⟩
    let wrong : Definition := ⟨signature "wrong", .binary '+' (.var "m") (recur "even" 0)⟩
    let known := [even, odd, wrong].foldl (fun c d => c.declare d.prototype) start
    (known.defineAll [even, wrong, odd]).1.map Except.isOk = [true, false, true] ∧
      ∀ name, (known.defineAll [even, wrong, odd]).2.program.find? name =
        (known.defineAll [odd, even, wrong]).2.program.find? name := by
  intro signature recur even odd wrong known
  have hknown : Reached known :=
    ((Reached.start.declare even.prototype).declare odd.prototype).declare wrong.prototype
  have hperm : [even, wrong, odd].Perm [odd, even, wrong] :=
    (List.Perm.cons even (.swap odd wrong [])).trans (.swap odd even [wrong])
  have hannounced : ∀ d ∈ [even, wrong, odd], known.Announced d := by
    intro d hd
    simp only [List.mem_cons, List.not_mem_nil, or_false] at hd
    rcases hd with rfl | rfl | rfl
    · exact ⟨_, rfl, rfl⟩
    · exact ⟨_, rfl, rfl⟩
    · exact ⟨_, rfl, rfl⟩
  obtain ⟨hresults, -, hsame⟩ :=
    hknown.defineAll_perm hperm (by decide +kernel) (by decide +kernel) hannounced
  exact ⟨by rw [hresults]; decide +kernel, hsame⟩

end Kaleidoscope.Compiler
