import Kaleidoscope.Proofs.Compiler.Lookups

/-!
# Which signature a call is checked against

The known signatures follow every statement, while the program keeps the function that a name came
with until another one is stored. So the two may disagree about a name. Which of them a call is
checked against is a matter of what happened before: a stored function counts for more than a
declaration, an early declaration for more than a late one, and the signature of a rejected
definition for least.
-/

namespace Kaleidoscope.Compiler

open Ssa (Function Program)

/-- What a statement came to, as far as signatures go. -/
inductive Incident where
  | declared (p : Prototype)
  /-- A function has been stored. Its code calls these callees. -/
  | stored (p : Prototype) (callees : List String)
  /-- A definition has been rejected for its body. -/
  | rejected (p : Prototype)
  /-- A definition has been rejected for its operator. -/
  | refused

/-- What a definition comes to. -/
def Incident.of (d : Definition) : Except CompileError Function → Incident
  | .ok _ => stored d.prototype d.body.callees
  | .error (.precedence _) => refused
  | .error _ => rejected d.prototype

/-- What a statement comes to. -/
def incident (c : Compiler) : Statement → Incident
  | .definition d => .of d (c.define d).1
  | .declaration p => .declared p
  | .evaluation body => .of ⟨.anonymous, body⟩ (c.define ⟨.anonymous, body⟩).1

/-- The compiler after some statements. -/
def compileAll (c : Compiler) (statements : List Statement) : Compiler :=
  statements.foldl (fun c statement => (c.compile statement).2) c

/-- What some statements come to that are compiled one after the other. -/
def incidents (c : Compiler) : List Statement → List Incident
  | [] => []
  | statement :: rest => c.incident statement :: (c.compile statement).2.incidents rest

/-- The signature of the function of this name that is stored. -/
def Incident.stores? (name : String) : Incident → Option Prototype
  | stored p _ => if p.name = name then some p else none
  | _ => none

/-- The signature of the definition of this name that is rejected for its body. -/
def Incident.rejects? (name : String) : Incident → Option Prototype
  | rejected p => if p.name = name then some p else none
  | _ => none

/-- The signature that becomes known for this name. -/
def Incident.registers? (name : String) : Incident → Option Prototype
  | declared p | stored p _ | rejected p => if p.name = name then some p else none
  | refused => none

/-- The signature of the latest successful definition. The incidents of the past are listed from the
last one to the first one. -/
def stored? (name : String) (past : List Incident) : Option Prototype :=
  past.findSome? (Incident.stores? name)

/-- The signature of the latest definition that was rejected for its body. -/
def rejected? (name : String) (past : List Incident) : Option Prototype :=
  past.findSome? (Incident.rejects? name)

/-- The signature that became known last. -/
def registered? (name : String) (past : List Incident) : Option Prototype :=
  past.findSome? (Incident.registers? name)

/-- The signature with which a name that has no function is added to the program: that of a
declaration, or the one known by then if the code of a function calls it. -/
def Incident.adds? (name : String) (earlier : List Incident) : Incident → Option Prototype
  | declared p => if p.name = name then some p else none
  | stored _ callees => if name ∈ callees then registered? name earlier else none
  | _ => none

/-- The signature with which a name was first added to the program. -/
def added? (name : String) : List Incident → Option Prototype
  | [] => none
  | incident :: earlier => (added? name earlier).or (incident.adds? name earlier)

/-- The signature that a call of the name is checked against. -/
def signature? (name : String) (past : List Incident) : Option Prototype :=
  (stored? name past).or ((added? name past).or (rejected? name past))

/-- The last incident counts first. -/
theorem findSome?_cons_eq_or (select : Incident → Option Prototype) (incident : Incident)
    (earlier : List Incident) :
    (incident :: earlier).findSome? select = (select incident).or (earlier.findSome? select) := by
  rw [List.findSome?_cons]
  cases select incident with
  | none => rfl
  | some p => rfl

/-- The latest incident decides which function is stored, if it is about the name. -/
theorem stored?_cons (name : String) (incident : Incident) (earlier : List Incident) :
    stored? name (incident :: earlier) = (incident.stores? name).or (stored? name earlier) :=
  findSome?_cons_eq_or _ incident earlier

/-- It decides which definition is rejected, too. -/
theorem rejected?_cons (name : String) (incident : Incident) (earlier : List Incident) :
    rejected? name (incident :: earlier) = (incident.rejects? name).or (rejected? name earlier) :=
  findSome?_cons_eq_or _ incident earlier

/-- It decides which signature is known, too. -/
theorem registered?_cons (name : String) (incident : Incident) (earlier : List Incident) :
    registered? name (incident :: earlier) =
      (incident.registers? name).or (registered? name earlier) :=
  findSome?_cons_eq_or _ incident earlier

/-- What is known of a name that is not in the program comes from a definition that was rejected. -/
theorem registered?_eq_rejected? {name : String} {past : List Incident}
    (hstored : stored? name past = none) (hadded : added? name past = none) :
    registered? name past = rejected? name past := by
  induction past with
  | nil => rfl
  | cons incident earlier ih =>
    rw [stored?_cons, Option.or_eq_none_iff] at hstored
    rw [added?, Option.or_eq_none_iff] at hadded
    have hearlier := ih hstored.2 hadded.1
    rw [registered?_cons, rejected?_cons, hearlier]
    have hor {p : Option Prototype} (hp : p = none) :
        p.or (rejected? name earlier) = rejected? name earlier := by
      rw [hp, Option.none_or]
    cases incident with
    | declared p => exact hor hadded.2
    | stored p callees => exact hor hstored.1
    | rejected p => rfl
    | refused => rfl

/-- A name is added to the program once. -/
theorem added?_append {name : String} {earlier : List Incident} (h : (added? name earlier).isSome)
    (later : List Incident) : added? name (later ++ earlier) = added? name earlier := by
  induction later with
  | nil => rfl
  | cons incident later ih =>
    rw [List.cons_append, added?, ih, Option.or_of_isSome h]

/-- What is stored under other names does not count. -/
theorem stored?_append {name : String} {later : List Incident}
    (h : ∀ incident ∈ later, incident.stores? name = none) (earlier : List Incident) :
    stored? name (later ++ earlier) = stored? name earlier := by
  induction later with
  | nil => rfl
  | cons incident later ih =>
    obtain ⟨hfirst, hrest⟩ := List.forall_mem_cons.1 h
    rw [List.cons_append, stored?_cons, hfirst, Option.none_or, ih hrest]

/-- What is known and what is in the program are as the past says. -/
structure Follows (c : Compiler) (past : List Incident) : Prop where
  reached : Reached c
  prototypes : ∀ name, c.prototypes.lookup name = registered? name past
  program : ∀ name, (c.program.find? name).map Function.arity =
    ((stored? name past).or (added? name past)).map Prototype.arity

variable {c : Compiler} {past : List Incident} {d : Definition} {name : String}

/-- Nothing has happened in the beginning. -/
theorem follows_start : Follows start [] := ⟨.start, fun _ => rfl, fun _ => rfl⟩

/-- A signature that becomes known counts from then on. -/
theorem Follows.lookup_insert (h : Follows c past) (p : Prototype) (name : String) :
    (c.prototypes.insert p.name p).lookup name =
      (if p.name = name then some p else none).or (registered? name past) := by
  rw [Dictionary.lookup_insert, h.prototypes]
  split
  · rfl
  · rfl

/-- A declaration adds what is not there. -/
theorem Follows.declare (h : Follows c past) (p : Prototype) :
    Follows (c.declare p) (.declared p :: past) where
  reached := h.reached.declare p
  prototypes name := by
    rw [registered?_cons]
    exact h.lookup_insert p name
  program name := by
    have hearlier := h.program name
    change ((c.program.declare p.name p.parameters).find? name).map Function.arity =
      ((stored? name past).or
        ((added? name past).or (if p.name = name then some p else none))).map Prototype.arity
    rw [Program.find?_declare, ← Option.or_assoc, Option.map_or, ← hearlier]
    by_cases hname : p.name = name
    · subst hname
      rw [if_pos rfl, if_pos rfl]
      cases c.program.find? p.name with
      | none => rfl
      | some f => rfl
    · rw [if_neg hname, if_neg hname]
      exact Option.or_none.symm

/-- A definition that is refused leaves nothing. -/
theorem Follows.refused (h : Follows c past) : Follows c (.refused :: past) where
  reached := h.reached
  prototypes name := by
    rw [registered?_cons]
    exact h.prototypes name
  program name := by
    change _ = ((stored? name past).or ((added? name past).or none)).map Prototype.arity
    rw [Option.or_none]
    exact h.program name

/-- A definition that is rejected leaves its signature. -/
theorem Follows.rejected (h : Follows c past) {p : Prototype} {after : Compiler}
    (hreached : Reached after) (hprogram : after.program = c.program)
    (hprototypes : after.prototypes = c.prototypes.insert p.name p) :
    Follows after (.rejected p :: past) where
  reached := hreached
  prototypes name := by
    rw [registered?_cons, hprototypes]
    exact h.lookup_insert p name
  program name := by
    change _ = ((stored? name past).or ((added? name past).or none)).map Prototype.arity
    rw [Option.or_none, hprogram]
    exact h.program name

/-- A definition that is stored replaces the function of its name and adds the callees that are
missing. -/
theorem Follows.stored (h : Follows c past) {f : Function} {after : Compiler}
    (hreached : Reached after) (harity : f.arity = d.prototype.arity)
    (hprototypes : after.prototypes = c.prototypes.insert d.prototype.name d.prototype)
    (hfind : ∀ name, after.program.find? name =
      if name = d.prototype.name then some f
      else (c.program.find? name).or
        (if name ∈ d.body.callees then (c.prototypes.lookup name).map Prototype.declaration
          else none)) :
    Follows after (.stored d.prototype d.body.callees :: past) where
  reached := hreached
  prototypes name := by
    rw [registered?_cons, hprototypes]
    exact h.lookup_insert d.prototype name
  program name := by
    rw [stored?_cons, added?, hfind, Incident.stores?, Incident.adds?]
    by_cases hname : name = d.prototype.name
    · rw [if_pos hname, if_pos hname.symm]
      exact congrArg some harity
    · -- A callee that is missing comes with the signature that was known last.
      rw [if_neg hname, if_neg (Ne.symm hname), Option.none_or, ← Option.or_assoc, Option.map_or,
        Option.map_or, h.program, h.prototypes]
      split
      · rw [Option.map_map]
        rfl
      · rfl

/-- The compiler follows a definition, however it ends. -/
theorem Follows.define (h : Follows c past) (d : Definition) :
    Follows (c.define d).2 (.of d (c.define d).1 :: past) := by
  have hreached := h.reached.define d
  have hattempt := h.reached.attempt d
  generalize (c.define d).1 = result at hattempt ⊢
  generalize (c.define d).2 = after at hattempt hreached ⊢
  cases hattempt with
  | refused cause => exact h.refused
  | @rejected e _ hne hprogram hprototypes =>
    cases e with
    | precedence cause => exact (hne cause rfl).elim
    | _ => exact h.rejected hreached hprogram hprototypes
  | stored harity hprototypes hfind => exact h.stored hreached harity hprototypes hfind

/-- A statement adds its incident to the past. -/
theorem Follows.compile (h : Follows c past) (statement : Statement) :
    Follows (c.compile statement).2 (c.incident statement :: past) := by
  cases statement with
  | definition d => exact h.define d
  | declaration p => exact h.declare p
  | evaluation body => exact h.define ⟨.anonymous, body⟩

/-- Whatever is compiled, the compiler follows. -/
theorem Follows.compileAll (h : Follows c past) (statements : List Statement) :
    Follows (c.compileAll statements) ((c.incidents statements).reverse ++ past) := by
  induction statements generalizing c past with
  | nil => exact h
  | cons statement rest ih =>
    rw [incidents, List.reverse_cons, List.append_assoc, List.singleton_append]
    exact ih (h.compile statement)

/-- What is known of a name in the bodies of others is what happened to the name. -/
theorem Follows.arity?_eq (h : Follows c past) (name : String) :
    c.arity? name = (signature? name past).map Prototype.arity := by
  rw [arity?, h.program, h.prototypes, signature?, ← Option.or_assoc]
  cases hadded : (stored? name past).or (added? name past) with
  | some p => rfl
  | none =>
    obtain ⟨hstored, hadded⟩ := Option.or_eq_none_iff.1 hadded
    rw [registered?_eq_rejected? hstored hadded]
    rfl

/-- That is what generation looks up. -/
theorem Follows.run_arityOf (h : Follows c past) (d : Definition) (name : String)
    (s : Lowering.State) :
    ((Lowering.arityOf (c.surroundings d) name).run.run s).1 =
      .ok (if name = d.prototype.name then some d.prototype.arity
        else (signature? name past).map Prototype.arity) := by
  rw [Lowering.run_arityOf, arity?_surroundings, h.arity?_eq]

/-- Once a name is in the program, only a function that is stored under it makes a difference. -/
theorem Follows.signature?_append (h : Follows c past) (hname : (c.program.find? name).isSome)
    {later : List Incident} (hlater : ∀ incident ∈ later, incident.stores? name = none) :
    signature? name (later ++ past) = signature? name past := by
  rw [signature?, signature?, stored?_append hlater]
  cases hstored : stored? name past with
  | some p => rfl
  | none =>
    have hprogram := h.program name
    rw [hstored, Option.none_or] at hprogram
    have hadded : (added? name past).isSome := by
      rw [← Option.isSome_map, ← hprogram, Option.isSome_map]
      exact hname
    rw [added?_append hadded, Option.or_of_isSome hadded, Option.or_of_isSome hadded]

/-- What a call is checked against follows from what happened to its name. In the body of a function
it is the function's own signature if the name is its own. Any other name has the signature of its
latest successful definition, or else the one with which it was first added to the program, or else
the one that a rejected definition has left; it is unknown if there is none. Once it is in the
program, neither declarations nor definitions that are rejected change it. -/
theorem arityOf_follows_history (statements : List Statement) (d : Definition) (name : String) :
    let c := start.compileAll statements
    let past := (start.incidents statements).reverse
    (∀ s, ((Lowering.arityOf (c.surroundings d) name).run.run s).1 =
      .ok (if name = d.prototype.name then some d.prototype.arity
        else (signature? name past).map Prototype.arity)) ∧
    ((c.program.find? name).isSome → ∀ later,
      (∀ incident ∈ c.incidents later, incident.stores? name = none) →
      ∀ s, ((Lowering.arityOf ((c.compileAll later).surroundings d) name).run.run s).1 =
        ((Lowering.arityOf (c.surroundings d) name).run.run s).1) := by
  intro c past
  have hfollows : Follows c past := by
    have h := follows_start.compileAll statements
    rwa [List.append_nil] at h
  refine ⟨hfollows.run_arityOf d name, fun hname later hlater s => ?_⟩
  have hreverse : ∀ incident ∈ (c.incidents later).reverse, incident.stores? name = none :=
    fun incident hmem => hlater incident (List.mem_reverse.1 hmem)
  rw [(hfollows.compileAll later).run_arityOf, hfollows.run_arityOf,
    hfollows.signature?_append hname hreverse]

-- What is left of `g` when its definition is rejected is what `f` brings into the program, so that a
-- later declaration makes no difference.
example :
    let signature (parameters : List String) : Prototype := ⟨"g", parameters, .plain⟩
    let statements : List Statement :=
      [.definition ⟨signature ["x"], .var "y"⟩,
        .definition ⟨⟨"f", ["x"], .plain⟩, .call "g" [.var "x"]⟩, .declaration (signature [])]
    signature? "g" (start.incidents statements).reverse = some (signature ["x"]) := by
  decide +kernel

end Kaleidoscope.Compiler
