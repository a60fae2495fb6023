import Kaleidoscope.Proofs.Correctness.Failures
import Kaleidoscope.Proofs.Lowering.Calls

/-!
# Programs in which every callee is present

A callee that a body calls is found when the body is generated, or it is declared before the
function is stored. It is never removed later: only the function of a bare expression is removed,
and no body calls it. What a function is called with is what some signature of its name says, among
all those that definitions and declarations have given, whether they succeeded or not.
-/

namespace Kaleidoscope

open Ssa (Function Program)

namespace Ssa.Program

variable {p : Program} {f g : Function} {name : String} {parameters : List String}

/-- Nothing but the defined function is new. -/
theorem mem_defineIn {functions : List Function} (h : g ∈ defineIn f functions) :
    g = f ∨ g ∈ functions := by
  induction functions with
  | nil => exact .inl (List.mem_singleton.1 h)
  | cons first rest ih =>
    rw [defineIn] at h
    split at h
    · exact (List.mem_cons.1 h).imp_right (List.mem_cons_of_mem _)
    · rcases List.mem_cons.1 h with rfl | h
      · exact .inr List.mem_cons_self
      · exact (ih h).imp_right (List.mem_cons_of_mem _)

/-- A declaration adds a function without body at most. -/
theorem mem_declare (h : g ∈ (p.declare name parameters).functions) :
    g ∈ p.functions ∨ g = ⟨name, parameters, none⟩ := by
  unfold declare at h
  split at h
  · exact .inl h
  · exact (List.mem_append.1 h).imp_right List.mem_singleton.1

/-- A function without body calls nothing. -/
theorem not_calls {callee : String} {n : Nat} :
    ¬ (⟨name, parameters, none⟩ : Function).Calls callee n := by
  rintro ⟨body, hmem, -⟩
  cases hmem

/-- A definition removes no function. -/
theorem isSome_define (h : (p.find? name).isSome) : ((p.define f).find? name).isSome := by
  rw [find?_define]
  split
  · rfl
  · exact h

/-- A declaration removes no function. -/
theorem isSome_declare {other : String} (h : (p.find? other).isSome) :
    ((p.declare name parameters).find? other).isSome := by
  rw [find?_declare]
  split
  · rfl
  · exact h

end Ssa.Program

/-- A signature is among those of a longer list, too. -/
theorem Signed.mono {given later : List Prototype} {name : String} {n : Nat} (h : Signed given name n)
    (hle : given ⊆ later) : Signed later name n :=
  h.imp fun _ hp => ⟨hle hp.1, hp.2⟩

/-- A node that fits some signatures fits more signatures. -/
theorem Expr.Fits.mono {arity arity' : String → Nat → Prop}
    (h : ∀ callee n, arity callee n → arity' callee n) {e : Expr} (he : e.Fits arity) :
    e.Fits arity' := by
  cases e with
  | unary => exact h _ _ he
  | binary => exact he.imp_right (h _ _)
  | call => exact h _ _ he
  | _ => trivial

/-- Definitions that fit go on fitting when more signatures are given. -/
theorem Definitions.Fit.mono {definitions : Definitions} {given later : List Prototype}
    (h : definitions.Fit given) (hle : given ⊆ later) : definitions.Fit later where
  signed hname := (h.signed hname).imp_right (hle ·)
  body hname := (h.body hname).mono fun _ => Expr.Fits.mono fun _ _ hsigned => hsigned.mono hle

/-- What is in effect for a name may be replaced by a definition that fits, or by none. -/
theorem Definitions.Fit.update {definitions : Definitions} {given : List Prototype}
    (h : definitions.Fit given) {name : String} {found : Option Definition}
    (hfound : ∀ d ∈ found, (d.prototype.name = name ∧ d.prototype ∈ given) ∧
      d.body.Every (Expr.Fits (Signed given))) :
    Definitions.Fit (Function.update definitions name found) given where
  signed {name' d} hname := by
    rw [Function.update_apply] at hname
    split at hname
    · rename_i heq
      exact heq ▸ (hfound d hname).1
    · exact h.signed hname
  body {name' d} hname := by
    rw [Function.update_apply] at hname
    split at hname
    · exact (hfound d hname).2
    · exact h.body hname

namespace Compiler

variable {c : Compiler} {definitions : Definitions} {given : List Prototype} {d : Definition}
  {p : Prototype} {program : Program} {callees : List Prototype} {f : Function} {name : String}

/-- Declarations add functions without body at most. -/
theorem mem_declareAll (h : f ∈ (declareAll program callees).functions) :
    f ∈ program.functions ∨ ∃ p ∈ callees, f = ⟨p.name, p.parameters, none⟩ := by
  induction callees generalizing program with
  | nil => exact .inl h
  | cons first rest ih =>
    rcases ih h with h | ⟨p, hp, hf⟩
    · exact (Program.mem_declare h).imp_right fun hf => ⟨first, List.mem_cons_self, hf⟩
    · exact .inr ⟨p, List.mem_cons_of_mem _ hp, hf⟩

/-- Declarations remove no function. -/
theorem isSome_declareAll (h : (program.find? name).isSome) :
    ((declareAll program callees).find? name).isSome := by
  induction callees generalizing program with
  | nil => exact h
  | cons first rest ih => exact ih (Program.isSome_declare h)

/-- What is declared is in the program. -/
theorem isSome_declareAll_of_mem (h : p ∈ callees) :
    ((declareAll program callees).find? p.name).isSome := by
  induction callees generalizing program with
  | nil => cases h
  | cons first rest ih =>
    rcases List.mem_cons.1 h with rfl | h
    · change ((declareAll (program.declare p.name p.parameters) rest).find? p.name).isSome
      refine isSome_declareAll ?_
      rw [Program.find?_declare, if_pos rfl]
      rfl
    · exact ih h

/-- Declarations add only the functions that they name. -/
theorem find?_declareAll_eq_none (h : program.find? name = none) (hne : ∀ p ∈ callees, p.name ≠ name) :
    (declareAll program callees).find? name = none := by
  induction callees generalizing program with
  | nil => exact h
  | cons first rest ih =>
    obtain ⟨hfirst, hrest⟩ := List.forall_mem_cons.1 hne
    refine ih ?_ hrest
    rw [Program.find?_declare, if_neg hfirst, h]

/-- What holds of the program and of the signatures that have been given. The definitions are the
ones in effect. -/
structure Linked (c : Compiler) (definitions : Definitions) (given : List Prototype) : Prop where
  faithful : Faithful c definitions
  fit : definitions.Fit given
  keyed : ∀ name p, c.prototypes.lookup name = some p → p.name = name ∧ p ∈ given
  signed : ∀ f ∈ c.program.functions, Signed given f.name f.arity
  calls : ∀ f ∈ c.program.functions, ∀ callee n, f.Calls callee n →
    callee ≠ Prototype.anonymousName ∧ (c.program.find? callee).isSome ∧ Signed given callee n

/-- There is nothing in the beginning. -/
theorem linked_start : Linked .start (fun _ => none) [] where
  faithful := faithful_start
  fit := ⟨nofun, nofun⟩
  keyed := nofun
  signed := nofun
  calls := nofun

/-- A signature is known by its name from when it is given. -/
theorem Linked.keyed_insert (h : Linked c definitions given) (q : Prototype) {name : String}
    (hp : (c.prototypes.insert q.name q).lookup name = some p) : p.name = name ∧ p ∈ q :: given := by
  rw [Dictionary.lookup_insert] at hp
  split at hp
  · cases hp
    exact ⟨‹_›, List.mem_cons_self⟩
  · exact (h.keyed _ _ hp).imp_right (List.mem_cons_of_mem _)

/-- A linked compiler knows every signature by its own name. -/
theorem Linked.keyed_surroundings (h : Linked c definitions given) : (c.surroundings d).Keyed :=
  fun _ _ hp => (h.keyed_insert d.prototype hp).1

/-- The number of parameters of a callee comes from a signature of its name. -/
theorem Linked.signed_of_hasArity (h : Linked c definitions given) {callee : String} {n : Nat}
    (harity : (c.surroundings d).HasArity callee n) : Signed (d.prototype :: given) callee n := by
  unfold Surroundings.HasArity Surroundings.arity? at harity
  split at harity
  · rename_i hself
    exact ⟨d.prototype, List.mem_cons_self, hself.symm, Option.some.inj harity⟩
  · split at harity
    · rename_i f hfind
      obtain ⟨hmem, rfl⟩ := Program.find?_eq_some hfind
      obtain rfl := Option.some.inj harity
      exact (h.signed f hmem).mono (List.subset_cons_self _ _)
    · obtain ⟨p, hlookup, harity⟩ := Option.map_eq_some_iff.1 harity
      obtain ⟨hname, hmem⟩ := h.keyed_insert d.prototype hlookup
      exact ⟨p, hmem, hname, harity⟩

/-- A signature that was given is left out of no later list. -/
theorem Linked.cons (h : Linked c definitions given) (p : Prototype) :
    Linked c definitions (p :: given) where
  faithful := h.faithful
  fit := h.fit.mono (List.subset_cons_self _ _)
  keyed name q hq := (h.keyed name q hq).imp_right (List.mem_cons_of_mem _)
  signed f hf := (h.signed f hf).mono (List.subset_cons_self _ _)
  calls f hf callee n hcall := (h.calls f hf callee n hcall).imp_right fun hcallee =>
    hcallee.imp_right fun hsigned => hsigned.mono (List.subset_cons_self _ _)

/-- What a function that has been generated calls will be in the program. -/
theorem Linked.calls_lowered (h : Linked c definitions given) (hbody : d.body.Every Expr.CallsWord)
    {lowered : Lowered} (hlower : lower (c.surroundings d) d.body = .ok lowered) {callee : String}
    {n : Nat} (hcall : lowered.function.Calls callee n) :
    callee ≠ Prototype.anonymousName ∧
      (((declareAll c.program lowered.declarations).define lowered.function).find? callee).isSome ∧
      Signed (d.prototype :: given) callee n := by
  obtain ⟨t, hlinked, hdeclarations, hcalls, -⟩ :=
    linked_of_lower_eq_ok h.keyed_surroundings hbody hlower
  have hin := hcalls callee n hcall
  refine ⟨hlinked.named hin, ?_, h.signed_of_hasArity (hlinked.arity hin)⟩
  have hname : lowered.function.name = d.prototype.name := (signature_of_lower_eq_ok hlower).1
  rcases hlinked.provided hin with hself | hfound | ⟨p, hp, rfl⟩
  · rw [Program.find?_define, if_pos (hname.trans hself.symm)]
    rfl
  · exact Program.isSome_define (isSome_declareAll hfound)
  · exact Program.isSome_define (isSome_declareAll_of_mem (hdeclarations ▸ hp))

/-- A definition keeps the program linked, whether it succeeds or not. -/
theorem Linked.define (h : Linked c definitions given) (hbody : d.body.Every Expr.CallsWord) :
    Linked (c.define d).2 (c.definitionsAfter definitions (.define d)) (d.prototype :: given) := by
  have hfaithful := h.faithful.define d
  rw [definitionsAfter] at hfaithful ⊢
  obtain ⟨e, -, heq⟩ | ⟨table, e, -, -, heq⟩ | ⟨table, lowered, -, hlower, heq⟩ := c.define_cases d
  · rw [heq]
    exact h.cons d.prototype
  · rw [heq]
    obtain ⟨hfaithful', hfit, -, hsigned, hcalls⟩ := h.cons d.prototype
    exact ⟨⟨hfaithful'.distinct, hfaithful'.represents⟩, hfit,
      fun name p hp => h.keyed_insert d.prototype hp, hsigned, hcalls⟩
  · rw [heq] at hfaithful ⊢
    obtain ⟨-, hfit, -, hsigned, hcalls⟩ := h.cons d.prototype
    obtain ⟨t, hlinked, hdeclarations, -, hfits⟩ :=
      linked_of_lower_eq_ok h.keyed_surroundings hbody hlower
    have hmem {f : Function}
        (hf : f ∈ ((declareAll c.program lowered.declarations).define lowered.function).functions) :
        f = lowered.function ∨ f ∈ c.program.functions ∨
          ∃ p ∈ lowered.declarations, f = ⟨p.name, p.parameters, none⟩ :=
      (Program.mem_defineIn hf).imp_right mem_declareAll
    refine ⟨hfaithful, hfit.update fun d' hd' => ?_, fun name p hp => h.keyed_insert d.prototype hp,
      fun f hf => ?_, fun f hf callee n hcall => ?_⟩
    · obtain rfl := Option.mem_some_iff.1 hd'
      exact ⟨⟨rfl, List.mem_cons_self⟩,
        hfits.mono fun _ => Expr.Fits.mono fun _ _ => h.signed_of_hasArity⟩
    · rcases hmem hf with rfl | hf | ⟨p, hp, rfl⟩
      · obtain ⟨hname, harity⟩ := signature_of_lower_eq_ok hlower
        exact ⟨d.prototype, List.mem_cons_self, hname.symm, harity.symm⟩
      · exact hsigned f hf
      · obtain ⟨hlookup, -⟩ := hlinked.declared p (hdeclarations ▸ hp)
        exact ⟨p, (h.keyed_insert d.prototype hlookup).2, rfl, rfl⟩
    · rcases hmem hf with rfl | hf | ⟨p, hp, rfl⟩
      · exact h.calls_lowered hbody hlower hcall
      · obtain ⟨hne, hfound, hsigned⟩ := hcalls f hf callee n hcall
        exact ⟨hne, Program.isSome_define (isSome_declareAll hfound), hsigned⟩
      · exact (Program.not_calls hcall).elim

/-- The function that a definition stores has its name. -/
theorem name_of_define {f : Function} (h : (c.define d).1 = .ok f) : f.name = d.prototype.name := by
  obtain ⟨e, -, heq⟩ | ⟨table, e, -, -, heq⟩ | ⟨table, lowered, -, hlower, heq⟩ := c.define_cases d
  · rw [heq] at h
    cases h
  · rw [heq] at h
    cases h
  · rw [heq] at h
    cases h
    exact (signature_of_lower_eq_ok hlower).1

/-- A definition stores no function of a bare expression unless it is named so. -/
theorem Linked.find?_define_eq_none (h : Linked c definitions given)
    (hbody : d.body.Every Expr.CallsWord) (hname : d.prototype.name ≠ Prototype.anonymousName)
    (hnone : c.program.find? Prototype.anonymousName = none) :
    (c.define d).2.program.find? Prototype.anonymousName = none := by
  obtain ⟨e, -, heq⟩ | ⟨table, e, -, -, heq⟩ | ⟨table, lowered, -, hlower, heq⟩ := c.define_cases d
  · rw [heq]
    exact hnone
  · rw [heq]
    exact hnone
  · obtain ⟨t, hlinked, hdeclarations, -, -⟩ :=
      linked_of_lower_eq_ok h.keyed_surroundings hbody hlower
    have hstored : lowered.function.name = d.prototype.name := name_of_define (congrArg Prod.fst heq)
    rw [heq]
    rw [← hstored] at hname
    refine (Program.find?_define ..).trans ((if_neg hname).trans ?_)
    exact find?_declareAll_eq_none hnone fun p hp => (hlinked.declared p (hdeclarations ▸ hp)).2

/-- A declaration keeps the program linked. -/
theorem Linked.declare (h : Linked c definitions given) (p : Prototype) :
    Linked (c.declare p) definitions (p :: given) where
  faithful := h.faithful.perform (.declare p)
  fit := (h.cons p).fit
  keyed _ _ hq := h.keyed_insert p hq
  signed f hf := by
    rcases Program.mem_declare hf with hf | rfl
    · exact (h.cons p).signed f hf
    · exact ⟨p, List.mem_cons_self, rfl, rfl⟩
  calls f hf callee n hcall := by
    rcases Program.mem_declare hf with hf | rfl
    · obtain ⟨hne, hfound, hsigned⟩ := (h.cons p).calls f hf callee n hcall
      exact ⟨hne, Program.isSome_declare hfound, hsigned⟩
    · exact (Program.not_calls hcall).elim

/-- The function of a bare expression can be removed: nothing calls it. -/
theorem Linked.erase (h : Linked c definitions given) :
    Linked (c.erase Prototype.anonymousName)
      (Function.update definitions Prototype.anonymousName none) given where
  faithful := h.faithful.perform (.erase _)
  fit := h.fit.update nofun
  keyed := h.keyed
  signed f hf := h.signed f ((Program.eraseIn_sublist _ _).subset hf)
  calls f hf callee n hcall := by
    obtain ⟨hne, hfound, hsigned⟩ := h.calls f ((Program.eraseIn_sublist _ _).subset hf) callee n hcall
    have hother := h.faithful.distinct.find?_erase Prototype.anonymousName callee
    rw [if_neg hne.symm] at hother
    exact ⟨hne, hother ▸ hfound, hsigned⟩

/-- Only words are called by name, and no function is given the name that belongs to bare
expressions. -/
def Linkable : Statement → Prop
  | .definition d => d.prototype.name ≠ Prototype.anonymousName ∧ d.body.Every Expr.CallsWord
  | .declaration p => p.name ≠ Prototype.anonymousName
  | .evaluation body => body.Every Expr.CallsWord

/-- A statement keeps the program linked. -/
theorem Linked.compile (h : Linked c definitions given) {statement : Statement}
    (hlinkable : Linkable statement) :
    ∃ after, Linked (c.compile statement).2 after (statement.prototype :: given) := by
  cases statement with
  | definition d => exact ⟨_, h.define hlinkable.2⟩
  | declaration p => exact ⟨_, h.declare p⟩
  | evaluation body => exact ⟨_, h.define hlinkable⟩

/-- Only a bare expression leads to a function of its name. -/
theorem Linked.find?_compile_eq_none (h : Linked c definitions given) {statement : Statement}
    (hlinkable : Linkable statement) (hstatement : ∀ body, statement ≠ .evaluation body)
    (hnone : c.program.find? Prototype.anonymousName = none) :
    (c.compile statement).2.program.find? Prototype.anonymousName = none := by
  cases statement with
  | definition d => exact h.find?_define_eq_none hlinkable.2 hlinkable.1 hnone
  | declaration p =>
    refine (Program.find?_declare ..).trans ((if_neg ?_).trans hnone)
    exact hlinkable
  | evaluation body => exact (hstatement body rfl).elim

end Compiler

end Kaleidoscope
