import Kaleidoscope.Proofs.Source.Places
import Mathlib.Data.List.Induction

/-!
# Places are coordinates

The place of a cut counts the newlines before it, and the characters between the start of its line
and it. Each character leads to a greater place, so the cuts of a text have different places, in
their own order, and the place alone tells which cut it is.
-/

namespace Kaleidoscope

namespace Place

/-- A place comes strictly before those on later lines, and before those strictly further right on
its own. -/
instance : LT Place := ⟨fun a b => a.line < b.line ∨ a.line = b.line ∧ a.column < b.column⟩

/-- Places are compared by line, and in one line by column. -/
theorem lt_iff {a b : Place} : a < b ↔ a.line < b.line ∨ a.line = b.line ∧ a.column < b.column :=
  Iff.rfl

instance (a b : Place) : Decidable (a < b) := decidable_of_iff _ lt_iff.symm

/-- A place does not come before itself. -/
theorem ne_of_lt {a b : Place} (h : a < b) : a ≠ b := by
  rintro rfl
  rw [lt_iff] at h
  omega

/-- A place before another one comes before all that do not precede that. -/
theorem lt_of_lt_of_le {a b c : Place} (hab : a < b) (hbc : b ≤ c) : a < c := by
  rw [lt_iff] at hab ⊢
  rw [le_iff] at hbc
  omega

end Place

namespace Source

variable {text front behind earlier line : List Char} {start target : Place} {offset offset' : Nat}

/-- A line starts where the text does, or behind a newline. -/
def StartsLine (earlier : List Char) : Prop := earlier = [] ∨ ∃ before, earlier = before ++ ['\n']

/-- The offset has the place by count: the lines before its own are the newlines before it, and the
columns before its own are the characters between the start of its line and it. -/
def Counted (text : List Char) (offset : Nat) (place : Place) : Prop :=
  ∃ earlier line behind, text = earlier ++ line ++ behind ∧ size (earlier ++ line) = offset ∧
    StartsLine earlier ∧ '\n' ∉ line ∧
    (earlier ++ line).count '\n' + 1 = place.line ∧ line.length + 1 = place.column

/-- The offset of a place, found by passing characters until the place is met. -/
def offsetFrom (start target : Place) : List Char → Option Nat
  | [] => if start = target then some 0 else none
  | c :: rest =>
    if start = target then some 0
    else (offsetFrom (next start c) target rest).map (c.utf8Size + ·)

/-- The offset of a place of the text, if the text has such a place. -/
def offset? (text : List Char) (target : Place) : Option Nat := offsetFrom ⟨1, 1⟩ target text

/-- The cuts are the offsets between characters up to the end of the text. -/
theorem cuts_iff : Cuts text offset ↔ isBoundary text offset = true ∧ offset ≤ size text := by
  refine ⟨fun h => ⟨h.isBoundary, h.le_size⟩, fun h => ?_⟩
  induction text generalizing offset with
  | nil => exact ⟨[], [], rfl, (Nat.le_zero.1 h.2).symm⟩
  | cons c rest ih =>
    obtain ⟨hboundary, hle⟩ := h
    simp only [Source.isBoundary, Bool.or_eq_true, decide_eq_true_eq, Bool.and_eq_true] at hboundary
    simp only [size] at hle
    rcases hboundary with rfl | ⟨hpassed, hboundary⟩
    · exact ⟨[], c :: rest, rfl, rfl⟩
    · obtain ⟨front, behind, rfl, hfront⟩ := ih ⟨hboundary, by omega⟩
      exact ⟨c :: front, behind, rfl, by simp only [size]; omega⟩

/-- The first cut is the beginning; any other one lies behind the first character. -/
theorem cuts_cons {c : Char} {rest : List Char} :
    Cuts (c :: rest) offset ↔
      offset = 0 ∨ ∃ later, offset = c.utf8Size + later ∧ Cuts rest later := by
  constructor
  · rintro ⟨front, behind, heq, rfl⟩
    cases front with
    | nil => exact .inl rfl
    | cons d front =>
      obtain ⟨rfl, rfl⟩ := List.cons.inj heq
      exact .inr ⟨size front, rfl, front, behind, rfl, rfl⟩
  · rintro (rfl | ⟨_, rfl, front, behind, rfl, rfl⟩)
    · exact ⟨[], c :: rest, rfl, rfl⟩
    · exact ⟨c :: front, behind, rfl, rfl⟩

/-- At a greater cut, a text goes on behind a smaller one. -/
theorem Cuts.exists_between (h : Cuts text offset) (h' : Cuts text offset') (hlt : offset < offset') :
    ∃ front c between behind, text = front ++ (c :: between) ++ behind ∧ size front = offset ∧
      size (front ++ c :: between) = offset' := by
  obtain ⟨front, behind, rfl, rfl⟩ := h
  obtain ⟨front', behind', heq, rfl⟩ := h'
  rcases List.append_eq_append_iff.1 heq with ⟨between, rfl, rfl⟩ | ⟨between, rfl, rfl⟩
  · cases between with
    | nil => simp at hlt
    | cons c between => exact ⟨front, c, between, behind', heq, rfl, rfl⟩
  · rw [size_append] at hlt
    omega

/-- The place of a cut is reached by passing the characters before it. -/
theorem placeFrom_size (start : Place) (front behind : List Char) :
    placeFrom start (front ++ behind) (size front) = front.foldl next start := by
  induction front generalizing start with
  | nil =>
    cases behind with
    | nil => rfl
    | cons c rest =>
      have := c.utf8Size_pos
      simp only [List.nil_append, size, placeFrom, List.foldl_nil]
      rw [if_neg (by omega)]
  | cons c front ih =>
    simp only [List.cons_append, size, placeFrom, List.foldl_cons]
    rw [if_pos (Nat.le_add_right _ _), Nat.add_sub_cancel_left, ih]

/-- Offsets beyond the text have the place of its end. -/
theorem placeFrom_of_size_le (start : Place) (h : size text ≤ offset) :
    placeFrom start text offset = text.foldl next start := by
  induction text generalizing start offset with
  | nil => rfl
  | cons c rest ih =>
    simp only [size] at h
    rw [placeFrom, if_pos (by omega), ih _ (by omega), List.foldl_cons]

/-- Behind a character is a greater place. -/
theorem lt_next (place : Place) (c : Char) : place < next place c := by
  rw [next, Place.lt_iff]
  split
  · exact .inl (Nat.lt_succ_self _)
  · exact .inr ⟨rfl, Nat.lt_succ_self _⟩

/-- Passing characters never leads back. -/
theorem le_foldl_next (start : Place) (text : List Char) : start ≤ text.foldl next start := by
  induction text generalizing start with
  | nil => exact start.le_refl
  | cons c rest ih => exact Place.le_trans (le_next start c) (ih _)

/-- Greater cuts have greater places. -/
theorem place_lt_place (h : Cuts text offset) (h' : Cuts text offset') (hlt : offset < offset') :
    place text offset < place text offset' := by
  obtain ⟨front, c, between, behind, rfl, rfl, rfl⟩ := h.exists_between h' hlt
  have hfront : place (front ++ c :: between ++ behind) (size front) = front.foldl next ⟨1, 1⟩ := by
    rw [place, List.append_assoc, placeFrom_size]
  rw [hfront, place, placeFrom_size, List.foldl_append, List.foldl_cons]
  exact Place.lt_of_lt_of_le (lt_next _ c) (le_foldl_next _ between)

/-- Each newline that is passed leads to the next line. -/
theorem line_foldl_next (start : Place) (text : List Char) :
    (text.foldl next start).line = start.line + text.count '\n' := by
  induction text generalizing start with
  | nil => rfl
  | cons c rest ih =>
    rw [List.foldl_cons, ih, next, List.count_cons]
    by_cases hc : c = '\n'
    · simp [hc]
      omega
    · simp [hc]

/-- On one line each character leads to the next column. -/
theorem column_foldl_next (start : Place) (h : '\n' ∉ line) :
    (line.foldl next start).column = start.column + line.length := by
  induction line generalizing start with
  | nil => rfl
  | cons c rest ih =>
    obtain ⟨hc, hrest⟩ := not_or.1 (List.mem_cons.not.1 h)
    rw [List.foldl_cons, ih _ hrest, next, if_neg (Ne.symm hc), List.length_cons]
    dsimp only
    omega

/-- A line starts at the first column. -/
theorem StartsLine.column_eq_one (h : StartsLine earlier) : (earlier.foldl next ⟨1, 1⟩).column = 1 := by
  rcases h with rfl | ⟨before, rfl⟩
  · rfl
  · rw [List.foldl_append, List.foldl_cons, List.foldl_nil, next, if_pos rfl]

/-- Behind a part of a line, the place is given by the counts. -/
theorem foldl_next_eq (hstarts : StartsLine earlier) (hline : '\n' ∉ line) :
    (earlier ++ line).foldl next ⟨1, 1⟩ = ⟨(earlier ++ line).count '\n' + 1, line.length + 1⟩ := by
  have hline' := line_foldl_next ⟨1, 1⟩ (earlier ++ line)
  have hcolumn := column_foldl_next (earlier.foldl next ⟨1, 1⟩) hline
  rw [hstarts.column_eq_one, ← List.foldl_append] at hcolumn
  exact congrArg₂ Place.mk (hline'.trans (Nat.add_comm _ _)) (hcolumn.trans (Nat.add_comm _ _))

/-- Every beginning of a text ends with a part of a line. -/
theorem exists_line (front : List Char) :
    ∃ earlier line, front = earlier ++ line ∧ StartsLine earlier ∧ '\n' ∉ line := by
  induction front using List.reverseRecOn with
  | nil => exact ⟨[], [], rfl, .inl rfl, List.not_mem_nil⟩
  | append_singleton front c ih =>
    by_cases hc : c = '\n'
    · subst hc
      exact ⟨front ++ ['\n'], [], (List.append_nil _).symm, .inr ⟨front, rfl⟩, List.not_mem_nil⟩
    · obtain ⟨earlier, line, rfl, hstarts, hline⟩ := ih
      refine ⟨earlier, line ++ [c], List.append_assoc _ _ _, hstarts, ?_⟩
      simpa [Ne.symm hc] using hline

/-- The place of a cut is the one that counting gives. -/
theorem counted_iff (h : Cuts text offset) : Counted text offset target ↔ target = place text offset := by
  constructor
  · rintro ⟨earlier, line, behind, rfl, rfl, hstarts, hline, hlines, hcolumns⟩
    rw [place, placeFrom_size, foldl_next_eq hstarts hline, hlines, hcolumns]
  · rintro rfl
    obtain ⟨front, behind, rfl, rfl⟩ := h
    obtain ⟨earlier, line, rfl, hstarts, hline⟩ := exists_line front
    refine ⟨earlier, line, behind, rfl, rfl, hstarts, hline, ?_⟩
    rw [place, placeFrom_size, foldl_next_eq hstarts hline]
    exact ⟨rfl, rfl⟩

/-- Passing characters until a place is met finds the cut that has it, and nothing if no cut has
it. -/
theorem offsetFrom_eq_some_iff : offsetFrom start target text = some offset ↔
    Cuts text offset ∧ placeFrom start text offset = target := by
  induction text generalizing start offset with
  | nil =>
    have hcuts : Cuts [] offset ↔ offset = 0 := by simp [cuts_iff, Source.isBoundary, size]
    rw [hcuts, offsetFrom, placeFrom]
    by_cases hstart : start = target <;> simp [hstart, eq_comm]
  | cons c rest ih =>
    have hsize := c.utf8Size_pos
    have hbegin : placeFrom start (c :: rest) 0 = start := placeFrom_size start [] (c :: rest)
    have hpassed (later : Nat) :
        placeFrom start (c :: rest) (c.utf8Size + later) = placeFrom (next start c) rest later := by
      rw [placeFrom, if_pos (Nat.le_add_right _ _), Nat.add_sub_cancel_left]
    rw [offsetFrom, cuts_cons]
    by_cases hstart : start = target
    · rw [if_pos hstart, Option.some.injEq]
      constructor
      · rintro rfl
        exact ⟨.inl rfl, hbegin.trans hstart⟩
      · rintro ⟨rfl | ⟨later, rfl, -⟩, hplace⟩
        · rfl
        · -- Behind the first character no place is as small as the first one.
          rw [hpassed] at hplace
          have hlater := Place.lt_of_lt_of_le (lt_next start c) (le_placeFrom _ rest later)
          exact (Place.ne_of_lt hlater (hstart.trans hplace.symm)).elim
    · rw [if_neg hstart, Option.map_eq_some_iff]
      constructor
      · rintro ⟨later, hlater, rfl⟩
        obtain ⟨hcuts, hplace⟩ := ih.1 hlater
        exact ⟨.inr ⟨later, rfl, hcuts⟩, (hpassed later).trans hplace⟩
      · rintro ⟨rfl | ⟨later, rfl, hcuts⟩, hplace⟩
        · exact (hstart (hbegin.symm.trans hplace)).elim
        · exact ⟨later, ih.2 ⟨hcuts, (hpassed later).symm.trans hplace⟩, rfl⟩

/-- Places are coordinates: the place of an offset between characters is the one that counting
gives, greater offsets have greater places, the place tells the offset, and offsets behind the text
have the place of its end. -/
theorem place_coordinates (text : List Char) (offset : Nat) :
    (isBoundary text offset = true → offset ≤ size text →
      (∀ target, Counted text offset target ↔ target = place text offset) ∧
      (∀ offset', isBoundary text offset' = true → offset' ≤ size text → offset < offset' →
        place text offset < place text offset') ∧
      offset? text (place text offset) = some offset) ∧
    (size text ≤ offset → place text offset = place text (size text)) := by
  refine ⟨fun hboundary hle => ?_, fun hle => ?_⟩
  · have hcuts : Cuts text offset := cuts_iff.2 ⟨hboundary, hle⟩
    refine ⟨fun target => counted_iff hcuts, fun offset' hboundary' hle' hlt => ?_, ?_⟩
    · exact place_lt_place hcuts (cuts_iff.2 ⟨hboundary', hle'⟩) hlt
    · exact offsetFrom_eq_some_iff.2 ⟨hcuts, rfl⟩
  · rw [place, place, placeFrom_of_size_le _ hle, placeFrom_of_size_le _ (Nat.le_refl _)]

/-- Behind an empty line and a character of two bytes, the first character of the third line begins
at the fifth byte. -/
theorem third_line_coordinates :
    isBoundary "ø\n\nx".toList 4 = true ∧ 4 ≤ size "ø\n\nx".toList ∧
      Counted "ø\n\nx".toList 4 ⟨3, 1⟩ ∧ place "ø\n\nx".toList 3 < place "ø\n\nx".toList 4 ∧
      offset? "ø\n\nx".toList ⟨3, 1⟩ = some 4 ∧ place "ø\n\nx".toList 9 = ⟨3, 2⟩ := by
  have hplace : place "ø\n\nx".toList 4 = ⟨3, 1⟩ := by decide
  have hend : place "ø\n\nx".toList (size "ø\n\nx".toList) = ⟨3, 2⟩ := by decide
  obtain ⟨hcounted, -, hoffset⟩ := (place_coordinates "ø\n\nx".toList 4).1 (by decide) (by decide)
  obtain ⟨-, hgreater, -⟩ := (place_coordinates "ø\n\nx".toList 3).1 (by decide) (by decide)
  refine ⟨by decide, by decide, (hcounted _).2 hplace.symm,
    hgreater 4 (by decide) (by decide) (by decide), ?_, ?_⟩
  · rwa [hplace] at hoffset
  · rw [(place_coordinates "ø\n\nx".toList 9).2 (by decide), hend]

end Source

end Kaleidoscope
