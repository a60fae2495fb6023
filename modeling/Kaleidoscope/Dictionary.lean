/-!
# Dictionaries in order of arrival

A dictionary is a list of entries. A new key goes to the end, a key that is present keeps its
place when its value changes, and erasing a key closes the gap. Undoing an insertion, newest
first, therefore gives back the very same list.
-/

namespace Kaleidoscope

/-- Entries in the order in which their keys first arrived. -/
structure Dictionary (κ α : Type) where
  entries : List (κ × α)

namespace Dictionary

variable {κ α : Type} [DecidableEq κ]

/-- The dictionary without entries. -/
def empty : Dictionary κ α := ⟨[]⟩

/-- The value stored first under `key` in a list of entries. -/
def lookupIn (key : κ) : List (κ × α) → Option α
  | [] => none
  | (k, value) :: rest => if k = key then some value else lookupIn key rest

/-- Store `value` under `key`: in place if the key is present, otherwise at the end. -/
def insertIn (key : κ) (value : α) : List (κ × α) → List (κ × α)
  | [] => [(key, value)]
  | (k, old) :: rest =>
    if k = key then (key, value) :: rest else (k, old) :: insertIn key value rest

/-- Remove the first entry of `key`. -/
def eraseIn (key : κ) : List (κ × α) → List (κ × α)
  | [] => []
  | (k, value) :: rest => if k = key then rest else (k, value) :: eraseIn key rest

/-- The value stored under `key`. -/
def lookup (d : Dictionary κ α) (key : κ) : Option α := lookupIn key d.entries

/-- Store `value` under `key`. -/
def insert (d : Dictionary κ α) (key : κ) (value : α) : Dictionary κ α :=
  ⟨insertIn key value d.entries⟩

/-- Remove `key`. -/
def erase (d : Dictionary κ α) (key : κ) : Dictionary κ α := ⟨eraseIn key d.entries⟩

/-- Give `key` back the value it had before an insertion, or none. -/
def restore (d : Dictionary κ α) (key : κ) : Option α → Dictionary κ α
  | some value => d.insert key value
  | none => d.erase key

/-- The dictionary that holds the given entries, a later one replacing an earlier one. -/
def ofList (entries : List (κ × α)) : Dictionary κ α :=
  entries.foldl (fun d entry => d.insert entry.1 entry.2) empty

/-- Do both dictionaries answer every look-up alike? Only keys of either can tell them apart. -/
def agrees [DecidableEq α] (d e : Dictionary κ α) : Bool :=
  (d.entries ++ e.entries).all fun entry => d.lookup entry.1 = e.lookup entry.1

omit [DecidableEq κ] in
/-- Two dictionaries with the same entries are the same. -/
theorem ext_entries {d e : Dictionary κ α} (h : d.entries = e.entries) : d = e := by
  cases d; cases e; cases h; rfl

/-- Only the inserted key has another value than before. -/
theorem lookupIn_insertIn (key key' : κ) (value : α) (entries : List (κ × α)) :
    lookupIn key' (insertIn key value entries) =
      if key = key' then some value else lookupIn key' entries := by
  induction entries with
  | nil => simp [insertIn, lookupIn]
  | cons entry rest ih =>
    obtain ⟨k, old⟩ := entry
    by_cases hk : k = key
    · subst hk; by_cases h : k = key' <;> simp [insertIn, lookupIn, h]
    · by_cases h : k = key'
      · subst h; simp [insertIn, lookupIn, hk, Ne.symm hk]
      · simp [insertIn, lookupIn, hk, h, ih]

/-- After an insertion the key has its new value and every other key its old one. -/
theorem lookup_insert (d : Dictionary κ α) (key key' : κ) (value : α) :
    (d.insert key value).lookup key' = if key = key' then some value else d.lookup key' :=
  lookupIn_insertIn key key' value d.entries

/-- Undoing an insertion with what was found before gives the entries back. -/
theorem restore_insertIn (key : κ) (value : α) (entries : List (κ × α)) :
    (match lookupIn key entries with
      | some old => insertIn key old (insertIn key value entries)
      | none => eraseIn key (insertIn key value entries)) = entries := by
  induction entries with
  | nil => simp [insertIn, lookupIn, eraseIn]
  | cons entry rest ih =>
    obtain ⟨k, old⟩ := entry
    by_cases hk : k = key
    · subst hk; simp [insertIn, lookupIn]
    · simp only [lookupIn, insertIn, eraseIn, hk, if_false]
      split at ih <;> simp_all

/-- Restoring what an insertion replaced undoes it, entry for entry. -/
theorem restore_insert (d : Dictionary κ α) (key : κ) (value : α) :
    (d.insert key value).restore key (d.lookup key) = d := by
  have h := restore_insertIn key value d.entries
  apply ext_entries
  unfold restore lookup
  split at h <;> simp_all [insert, erase]

end Dictionary

end Kaleidoscope
