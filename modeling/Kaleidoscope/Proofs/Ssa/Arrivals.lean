import Kaleidoscope.Proofs.Ssa.Programs

/-!
# Programs in order of arrival

A program is a list in which every operation looks for the first function of a name. What it stands
for is a map: the names are in the order in which they arrived, and each has one function. Storing a
function under a name that is there leaves the order alone, declaring such a name changes nothing,
and removing a name closes the gap. Whatever has been done to a program, it is what has become of
the map.
-/

namespace Kaleidoscope

/-- A map whose keys stand in the order in which they arrived. -/
structure Arrivals (κ α : Type) where
  keys : List κ
  value? : κ → Option α
  nodup : keys.Nodup
  mem_keys (key : κ) : key ∈ keys ↔ (value? key).isSome

namespace Arrivals

variable {κ α : Type} [DecidableEq κ] {m : Arrivals κ α}

omit [DecidableEq κ] in
/-- A key that has not arrived has no value. -/
theorem notMem_keys_iff (key : κ) : key ∉ m.keys ↔ m.value? key = none := by
  rw [m.mem_keys, Option.not_isSome_iff_eq_none]

/-- The map without keys. -/
def empty : Arrivals κ α where
  keys := []
  value? _ := none
  nodup := List.nodup_nil
  mem_keys _ := by simp

/-- Give a key a value. A key that is there keeps its place, and a new one goes to the end. -/
def put (m : Arrivals κ α) (key : κ) (value : α) : Arrivals κ α where
  keys := if key ∈ m.keys then m.keys else m.keys ++ [key]
  value? other := if key = other then some value else m.value? other
  nodup := by
    split
    · exact m.nodup
    · rename_i hnew
      exact Ssa.Program.nodup_concat m.nodup hnew
  mem_keys other := by
    by_cases hkey : key = other
    · rw [if_pos hkey, ← hkey]
      split <;> simp_all
    · rw [if_neg hkey, ← m.mem_keys]
      split <;> simp [Ne.symm hkey]

/-- Give a key a value unless it has one. -/
def putNew (m : Arrivals κ α) (key : κ) (value : α) : Arrivals κ α :=
  if key ∈ m.keys then m else m.put key value

/-- Take a key away. The others keep their order. -/
def erase (m : Arrivals κ α) (key : κ) : Arrivals κ α where
  keys := m.keys.filter (· != key)
  value? other := if key = other then none else m.value? other
  nodup := m.nodup.filter _
  mem_keys other := by
    by_cases hkey : key = other
    · simp [hkey]
    · rw [if_neg hkey, ← m.mem_keys]
      simp [Ne.symm hkey]

/-- The keys with their values, in order. -/
def entries (m : Arrivals κ α) : List (κ × α) :=
  m.keys.filterMap fun key => (m.value? key).map (key, ·)

end Arrivals

namespace Ssa.Program

/-- What can be done to a program. -/
inductive Action where
  | declare (name : String) (parameters : List String)
  | define (f : Function)
  | erase (name : String)

/-- Do one thing. -/
def perform (p : Program) : Action → Program
  | .declare name parameters => p.declare name parameters
  | .define f => p.define f
  | .erase name => p.erase name

/-- Do one thing after the other. -/
def performAll (p : Program) (actions : List Action) : Program := actions.foldl perform p

/-- Do to a map what is done to a program. -/
def performOn (m : Arrivals String Function) : Action → Arrivals String Function
  | .declare name parameters => m.putNew name ⟨name, parameters, none⟩
  | .define f => m.put f.name f
  | .erase name => m.erase name

/-- Do one thing after the other. -/
def performAllOn (m : Arrivals String Function) (actions : List Action) : Arrivals String Function :=
  actions.foldl performOn m

variable {p : Program} {f : Function} {m : Arrivals String Function}

/-- The program has the names of the map in the same order, and finds for each name what the map
has. -/
structure Represents (m : Arrivals String Function) (p : Program) : Prop where
  names : p.functions.map Function.name = m.keys
  finds : ∀ name, p.find? name = m.value? name

/-- A program that represents a map has no name twice. -/
theorem Represents.distinct (h : Represents m p) : p.Distinct := by
  unfold Distinct
  rw [h.names]
  exact m.nodup

/-- At first there is nothing. -/
theorem represents_empty : Represents .empty empty := ⟨rfl, fun _ => rfl⟩

/-- Erasing a function takes its name out of the names. -/
theorem map_name_eraseIn (name : String) (functions : List Function) :
    (eraseIn name functions).map Function.name = (functions.map Function.name).erase name := by
  induction functions with
  | nil => rfl
  | cons g rest ih =>
    rw [eraseIn, List.map_cons, List.erase_cons]
    by_cases hg : g.name = name
    · simp [hg]
    · simp [hg, ih]

/-- Defining a function puts it under its name. -/
theorem Represents.define (h : Represents m p) (f : Function) :
    Represents (m.put f.name f) (p.define f) where
  names := by
    rw [Program.define, map_name_defineIn, h.names]
    rfl
  finds name := by
    rw [find?_define, h.finds]
    rfl

/-- Declaring a function puts it under its name, unless the name is taken. -/
theorem Represents.declare (h : Represents m p) (name : String) (parameters : List String) :
    Represents (m.putNew name ⟨name, parameters, none⟩) (p.declare name parameters) := by
  unfold Arrivals.putNew
  split
  · rename_i hmem
    obtain ⟨g, hg⟩ := Option.isSome_iff_exists.1 ((m.mem_keys name).1 hmem)
    rw [← h.finds] at hg
    rw [Program.declare, hg]
    exact h
  · rename_i hnew
    have hfind : p.find? name = none := (h.finds name).trans ((Arrivals.notMem_keys_iff name).1 hnew)
    refine ⟨?_, fun other => ?_⟩
    · simp only [Program.declare, hfind, Arrivals.put, if_neg hnew, List.map_append, h.names, List.map_cons,
        List.map_nil]
    · rw [find?_declare, hfind, h.finds]
      rfl

/-- Erasing a function takes its name away. -/
theorem Represents.erase (h : Represents m p) (name : String) :
    Represents (m.erase name) (p.erase name) where
  names := by
    -- Only the first function of the name is removed, but there is no other one.
    rw [Program.erase, map_name_eraseIn, h.names, m.nodup.erase_eq_filter]
    rfl
  finds other := by
    rw [h.distinct.find?_erase, h.finds]
    rfl

/-- One thing that is done keeps the program and the map together. -/
theorem Represents.perform (h : Represents m p) (action : Action) :
    Represents (performOn m action) (p.perform action) := by
  cases action with
  | declare name parameters => exact h.declare name parameters
  | define f => exact h.define f
  | erase name => exact h.erase name

/-- Whatever is done keeps the program and the map together. -/
theorem Represents.performAll (h : Represents m p) (actions : List Action) :
    Represents (performAllOn m actions) (p.performAll actions) := by
  induction actions generalizing m p with
  | nil => exact h
  | cons action actions ih => exact ih (h.perform action)

/-- The functions by name are the entries of the map, in the same order. -/
theorem Represents.entries_eq (h : Represents m p) :
    p.functions.map (fun f => (f.name, f)) = m.entries := by
  unfold Arrivals.entries
  rw [← h.names, List.filterMap_map, ← List.filterMap_eq_map]
  refine List.filterMap_congr fun f hf => ?_
  have hvalue : m.value? f.name = some f := (h.finds f.name).symm.trans (h.distinct.find?_name hf)
  simp [hvalue]

/-- Whatever is declared, defined and removed, no two functions have one name, and the program is
the map that comes from doing the same to it: it has the same functions in the same order, and finds
the same for every name. -/
theorem kept_in_order_of_arrival (actions : List Action) :
    (empty.performAll actions).Distinct ∧
    (empty.performAll actions).functions.map (fun f => (f.name, f)) =
      (performAllOn .empty actions).entries ∧
    ∀ name, (empty.performAll actions).find? name = (performAllOn .empty actions).value? name := by
  have h := represents_empty.performAll actions
  exact ⟨h.distinct, h.entries_eq, h.finds⟩

end Ssa.Program

end Kaleidoscope
