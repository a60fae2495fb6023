import Kaleidoscope.Source

/-!
# The order of places

Places are ordered line by line, and in a line column by column. The place of an offset is never
before that of a smaller one. An offset is good for a place only if it cuts the text between
characters, which is what the offsets of tokens do.
-/

namespace Kaleidoscope

namespace Place

/-- A place comes before those on later lines, and before those further right on its own. -/
instance : LE Place := ⟨fun a b => a.line < b.line ∨ a.line = b.line ∧ a.column ≤ b.column⟩

/-- Places are compared by line, and in one line by column. -/
theorem le_iff {a b : Place} : a ≤ b ↔ a.line < b.line ∨ a.line = b.line ∧ a.column ≤ b.column :=
  Iff.rfl

instance (a b : Place) : Decidable (a ≤ b) := decidable_of_iff _ le_iff.symm

/-- A place does not come behind itself. -/
theorem le_refl (a : Place) : a ≤ a := .inr ⟨rfl, Nat.le_refl _⟩

/-- The order of places is transitive. -/
theorem le_trans {a b c : Place} (hab : a ≤ b) (hbc : b ≤ c) : a ≤ c := by
  rw [le_iff] at hab hbc ⊢
  omega

end Place

namespace Source

variable {text : List Char} {offset offset' : Nat}

/-- Behind a character is a later place. -/
theorem le_next (place : Place) (c : Char) : place ≤ next place c := by
  rw [next, Place.le_iff]
  split
  · exact .inl (Nat.lt_succ_self _)
  · exact .inr ⟨rfl, Nat.le_succ _⟩

/-- No offset has a place before the beginning. -/
theorem le_placeFrom (place : Place) (text : List Char) (offset : Nat) :
    place ≤ placeFrom place text offset := by
  induction text generalizing place offset with
  | nil => exact place.le_refl
  | cons c rest ih =>
    rw [placeFrom]
    split
    · exact Place.le_trans (le_next place c) (ih _ _)
    · exact place.le_refl

/-- A later offset has no earlier place. -/
theorem placeFrom_mono (place : Place) (text : List Char) (h : offset ≤ offset') :
    placeFrom place text offset ≤ placeFrom place text offset' := by
  induction text generalizing place offset offset' with
  | nil => exact place.le_refl
  | cons c rest ih =>
    rw [placeFrom, placeFrom]
    split
    · rename_i hpassed
      rw [if_pos (Nat.le_trans hpassed h)]
      exact ih _ (Nat.sub_le_sub_right h _)
    · exact le_placeFrom place (c :: rest) offset'

/-- Further offsets have later places. -/
theorem place_mono (text : List Char) (h : offset ≤ offset') :
    place text offset ≤ place text offset' :=
  placeFrom_mono _ text h

/-- Offsets count bytes and columns count characters. -/
example : place "# é\n ø x".toList 8 = ⟨2, 3⟩ := by decide

/-- The bytes of a text are those of its parts. -/
theorem size_append (p q : List Char) : size (p ++ q) = size p + size q := by
  induction p with
  | nil => exact (Nat.zero_add _).symm
  | cons c rest ih => simp only [List.cons_append, size, ih, Nat.add_assoc]

/-- The offset counts the bytes of some characters at the beginning of the text. -/
def Cuts (text : List Char) (offset : Nat) : Prop :=
  ∃ front behind, text = front ++ behind ∧ size front = offset

/-- The end of the text cuts it. -/
theorem cuts_size (text : List Char) : Cuts text (size text) :=
  ⟨text, [], (List.append_nil text).symm, rfl⟩

/-- A cut lies within the text. -/
theorem Cuts.le_size (h : Cuts text offset) : offset ≤ size text := by
  obtain ⟨front, behind, rfl, rfl⟩ := h
  rw [size_append]
  exact Nat.le_add_right _ _

/-- A cut lies between two characters. -/
theorem Cuts.isBoundary (h : Cuts text offset) : isBoundary text offset = true := by
  obtain ⟨front, behind, rfl, rfl⟩ := h
  induction front with
  | nil =>
    cases behind with
    | nil => rfl
    | cons c rest => simp [Source.isBoundary, size]
  | cons c front ih => simp [Source.isBoundary, size, ih]

/-- The span begins and ends with a cut. -/
structure Delimits (text : List Char) (span : Span) : Prop where
  start : Cuts text span.start
  stop : Cuts text span.stop
  le : span.start ≤ span.stop

end Source

end Kaleidoscope
