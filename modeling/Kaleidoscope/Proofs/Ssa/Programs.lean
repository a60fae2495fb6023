import Kaleidoscope.Machine
import Mathlib.Data.List.Nodup

/-!
# Functions by name

A program never holds two functions of one name, so what it has for a name is what was stored last
under that name, unless it has been removed since.
-/

namespace Kaleidoscope.Ssa.Program

variable {p : Program} {f : Function} {name other : String} {parameters : List String}

/-- No two functions have one name. -/
def Distinct (p : Program) : Prop := (p.functions.map Function.name).Nodup

/-- A name belongs to the program exactly if it has a function of that name. -/
theorem find?_eq_none_iff : p.find? name = none ↔ name ∉ p.functions.map Function.name := by
  simp [find?]

/-- What is found for a name is a function of that name. -/
theorem find?_eq_some (h : p.find? name = some f) : f ∈ p.functions ∧ f.name = name := by
  have hname := List.find?_some h
  exact ⟨List.mem_of_find?_eq_some h, of_decide_eq_true hname⟩

/-- The defined function is found by its name, and every other one as before. -/
theorem find?_defineIn (f : Function) (functions : List Function) (name : String) :
    (defineIn f functions).find? (·.name = name) =
      if f.name = name then some f else functions.find? (·.name = name) := by
  induction functions with
  | nil => by_cases h : f.name = name <;> simp [defineIn, h]
  | cons g rest ih =>
    rw [defineIn]
    by_cases hg : g.name = f.name
    · rw [if_pos hg]
      by_cases h : f.name = name <;> simp [h, hg]
    · rw [if_neg hg, List.find?_cons, List.find?_cons, ih]
      by_cases h : g.name = name
      · simp [h, show f.name ≠ name from fun hf => hg (h.trans hf.symm)]
      · simp [h]

/-- A function that is stored is found, and other ones are as before. -/
theorem find?_define (p : Program) (f : Function) (name : String) :
    (p.define f).find? name = if f.name = name then some f else p.find? name :=
  find?_defineIn f p.functions name

/-- A declaration adds a function only where there is none. -/
theorem find?_declare (p : Program) (name : String) (parameters : List String) (other : String) :
    (p.declare name parameters).find? other =
      if name = other then some ((p.find? name).getD ⟨name, parameters, none⟩)
      else p.find? other := by
  unfold declare
  cases hfind : p.find? name with
  | some g =>
    by_cases h : name = other
    · rw [if_pos h, ← h, hfind]
      rfl
    · rw [if_neg h]
  | none =>
    by_cases h : name = other
    · subst h
      rw [find?] at hfind
      simp [find?, hfind]
    · simp [find?, h]

/-- A new name comes last, and one that is taken stays where it is. -/
theorem map_name_defineIn (f : Function) (functions : List Function) :
    (defineIn f functions).map Function.name =
      if f.name ∈ functions.map Function.name then functions.map Function.name
      else functions.map Function.name ++ [f.name] := by
  induction functions with
  | nil => rfl
  | cons g rest ih =>
    rw [defineIn]
    by_cases hg : g.name = f.name
    · simp [hg]
    · rw [if_neg hg, List.map_cons, ih, List.map_cons]
      by_cases hmem : f.name ∈ rest.map Function.name
      · rw [if_pos hmem, if_pos (List.mem_cons_of_mem _ hmem)]
      · rw [if_neg hmem, if_neg (by simpa [Ne.symm hg] using hmem), List.cons_append]

/-- A new key may be put at the end. -/
theorem nodup_concat {α : Type} {keys : List α} {key : α} (h : keys.Nodup) (hnew : key ∉ keys) :
    (keys ++ [key]).Nodup := by
  rw [← List.concat_eq_append]
  exact h.concat hnew

/-- Storing a function keeps names apart. -/
theorem Distinct.define (h : p.Distinct) (f : Function) : (p.define f).Distinct := by
  unfold Distinct Program.define
  rw [map_name_defineIn]
  split
  · exact h
  · rename_i hmem
    exact nodup_concat h hmem

/-- Declaring a function keeps names apart. -/
theorem Distinct.declare (h : p.Distinct) (name : String) (parameters : List String) :
    (p.declare name parameters).Distinct := by
  unfold Distinct Program.declare
  cases hfind : p.find? name with
  | some g => exact h
  | none =>
    rw [find?_eq_none_iff] at hfind
    simp only [List.map_append, List.map_cons, List.map_nil]
    exact nodup_concat h hfind

/-- Erasing a function keeps the order of the others. -/
theorem eraseIn_sublist (name : String) (functions : List Function) :
    List.Sublist (eraseIn name functions) functions := by
  induction functions with
  | nil => exact .slnil
  | cons g rest ih =>
    rw [eraseIn]
    split
    · exact List.sublist_cons_self g rest
    · exact ih.cons_cons g

/-- Removing a function keeps names apart. -/
theorem Distinct.erase (h : p.Distinct) (name : String) : (p.erase name).Distinct :=
  h.sublist ((eraseIn_sublist name p.functions).map _)

/-- The erased function is not found, and every other one as before. -/
theorem find?_eraseIn {functions : List Function} (h : (functions.map Function.name).Nodup)
    (name other : String) :
    (eraseIn name functions).find? (·.name = other) =
      if name = other then none else functions.find? (·.name = other) := by
  induction functions with
  | nil => simp [eraseIn]
  | cons g rest ih =>
    rw [List.map_cons, List.nodup_cons] at h
    rw [eraseIn]
    by_cases hg : g.name = name
    · rw [if_pos hg]
      by_cases heq : name = other
      · rw [if_pos heq, List.find?_eq_none]
        intro f hf hname
        have hmem : f.name = g.name := (of_decide_eq_true hname).trans (heq.symm.trans hg.symm)
        exact h.1 (hmem ▸ List.mem_map_of_mem hf)
      · rw [if_neg heq, List.find?_cons_of_neg]
        simpa [hg] using heq
    · rw [if_neg hg, List.find?_cons, List.find?_cons, ih h.2]
      by_cases heq : name = other
      · simp [heq, show g.name ≠ other from fun h => hg (h.trans heq.symm)]
      · simp [heq]

/-- A function that has been removed is not found, and other ones are as before. -/
theorem Distinct.find?_erase (h : p.Distinct) (name other : String) :
    (p.erase name).find? other = if name = other then none else p.find? other :=
  find?_eraseIn h name other

/-- If names are kept apart, every function is found by its name. -/
theorem Distinct.find?_name (h : p.Distinct) (hf : f ∈ p.functions) : p.find? f.name = some f := by
  cases hfind : p.find? f.name with
  | none => exact absurd (List.mem_map_of_mem hf) (find?_eq_none_iff.1 hfind)
  | some g =>
    obtain ⟨hg, hname⟩ := find?_eq_some hfind
    rw [List.inj_on_of_nodup_map h hg hf hname]

end Kaleidoscope.Ssa.Program

namespace Kaleidoscope.Machine

open Ssa (Program)

variable {p : Program} {name other : String}

/-- A body belongs to a function of the program. -/
theorem exists_mem_of_bodyOf? {arity : Nat} {body : Ssa.Body}
    (h : bodyOf? p name = some (arity, body)) :
    ∃ f ∈ p.functions, f.arity = arity ∧ f.body = some body := by
  unfold bodyOf? at h
  split at h
  · rename_i f hfind
    obtain ⟨body', hbody, heq⟩ := Option.map_eq_some_iff.1 h
    cases heq
    exact ⟨f, List.mem_of_find?_eq_some hfind, rfl, hbody⟩
  · cases h

/-- Whether a function has a body does not depend on declarations. -/
theorem bodyOf?_declare (p : Program) (name : String) (parameters : List String) (other : String) :
    bodyOf? (p.declare name parameters) other = bodyOf? p other := by
  unfold bodyOf?
  rw [Program.find?_declare]
  by_cases h : name = other
  · subst h
    rw [if_pos rfl]
    cases p.find? name <;> rfl
  · rw [if_neg h]

/-- A function that is stored has the body that it is stored with. -/
theorem bodyOf?_define (p : Program) (f : Ssa.Function) (other : String) :
    bodyOf? (p.define f) other =
      if f.name = other then f.body.map fun body => (f.arity, body) else bodyOf? p other := by
  unfold bodyOf?
  rw [Program.find?_define]
  by_cases heq : f.name = other
  · simp only [if_pos heq]
  · simp only [if_neg heq]

/-- A function that has been removed has no body. -/
theorem bodyOf?_erase (h : p.Distinct) (name other : String) :
    bodyOf? (p.erase name) other = if name = other then none else bodyOf? p other := by
  unfold bodyOf?
  rw [h.find?_erase]
  by_cases heq : name = other
  · simp only [if_pos heq]
  · simp only [if_neg heq]

end Kaleidoscope.Machine
