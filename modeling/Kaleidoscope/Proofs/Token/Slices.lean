import Kaleidoscope.Proofs.Token.Splitting

/-!
# Tokens cut out of a text

The tokens from one place of a text to another are those of the characters between the start of the
first and the end of the last: a piece reaches as far as its characters do, and no further where
less follows it.
-/

namespace Kaleidoscope.Lexer

open Source (size)

variable {c : Char} {rest q text : List Char} {offset : Nat}

/-- The first character tells which ones belong to its piece. -/
theorem exists_run (c : Char) : ∃ (P : Char → Bool) (make : List Char → Piece),
    (∀ cs, (make cs).characters = cs) ∧ ∀ rest, piece c rest = make (c :: rest.takeWhile P) := by
  have hone (rest : List Char) : rest.takeWhile (fun _ => false) = [] := by
    cases rest <;> rfl
  by_cases hblank : isBlank c
  · exact ⟨fun _ => false, .skipped, fun _ => rfl, fun rest => by rw [piece, if_pos hblank, hone]⟩
  · by_cases hcomment : c = '#'
    · exact ⟨_, .skipped, fun _ => rfl, fun rest => by rw [piece, if_neg hblank, if_pos hcomment]⟩
    · by_cases halpha : c.isAlpha
      · exact ⟨_, fun cs => .found (word cs) cs, fun _ => rfl, fun rest => by
          rw [piece, if_neg hblank, if_neg hcomment, if_pos halpha]⟩
      · by_cases hliteral : Number.isLiteralChar c
        · exact ⟨_, fun cs => .found (numeral cs) cs, fun _ => rfl, fun rest => by
            rw [piece, if_neg hblank, if_neg hcomment, if_neg halpha, if_pos hliteral]⟩
        · exact ⟨fun _ => false, .found (.symbol c), fun _ => rfl, fun rest => by
            rw [piece, if_neg hblank, if_neg hcomment, if_neg halpha, if_neg hliteral, hone]⟩

/-- A run ends where it did if less follows it. -/
theorem takeWhile_append_of_prefix {P : Char → Bool} (h : q <+: rest.dropWhile P) :
    (rest.takeWhile P ++ q).takeWhile P = rest.takeWhile P := by
  rw [List.takeWhile_append_of_pos fun c hc => List.all_eq_true.1 List.all_takeWhile c hc]
  cases q with
  | nil => rw [List.takeWhile_nil, List.append_nil]
  | cons d q =>
    obtain ⟨behind, hbehind⟩ := h
    have hd := List.head?_dropWhile_not P rest
    rw [← hbehind] at hd
    have hd : P d = false := by simpa using hd
    rw [List.takeWhile_cons_of_neg (by rw [hd]; exact Bool.false_ne_true), List.append_nil]

/-- A piece is the same one if less follows it. -/
theorem exists_piece_append (h : q <+: (c :: rest).drop (piece c rest).characters.length) :
    ∃ cs, (piece c rest).characters ++ q = c :: cs ∧ piece c cs = piece c rest := by
  obtain ⟨P, make, hmake, hpiece⟩ := exists_run c
  have hcharacters : (piece c rest).characters = c :: rest.takeWhile P := by rw [hpiece, hmake]
  have hbehind : (c :: rest).drop (piece c rest).characters.length = rest.dropWhile P := by
    rw [hcharacters, List.length_cons, List.drop_succ_cons]
    have hsplit := List.prefix_iff_eq_append.1 (@List.takeWhile_prefix _ rest P)
    exact List.append_cancel_left (hsplit.trans List.takeWhile_append_dropWhile.symm)
  refine ⟨rest.takeWhile P ++ q, by rw [hcharacters, List.cons_append], ?_⟩
  rw [hpiece, hpiece, takeWhile_append_of_prefix (hbehind ▸ h)]

/-- The tokens of a piece and what less follows it. -/
theorem scan_piece_append (h : q <+: (c :: rest).drop (piece c rest).characters.length) :
    scan offset ((piece c rest).characters ++ q) = (piece c rest).lexemes offset ++
      scan (offset + size (piece c rest).characters) q := by
  obtain ⟨cs, heq, hpiece⟩ := exists_piece_append h
  rw [heq, scan_cons, hpiece, ← heq, List.drop_left]

/-- The first tokens of a text are those of the characters up to the end of the last one. -/
theorem exists_scan_eq {taken later : List Lexeme} (h : scan offset text = taken ++ later) :
    ∃ slice behind, text = slice ++ behind ∧ scan offset slice = taken ∧
      (taken = [] → slice = []) ∧ ∀ last ∈ taken.getLast?, last.span.stop = offset + size slice := by
  induction hsize : text.length using Nat.strongRecOn generalizing text offset taken with
  | ind n ih =>
    by_cases hnil : taken = []
    · subst hnil
      exact ⟨[], text, rfl, scan_nil offset, fun _ => rfl, nofun⟩
    cases text with
    | nil =>
      rw [scan_nil] at h
      exact absurd (List.append_eq_nil_iff.1 h.symm).1 hnil
    | cons c rest =>
      have hpos := length_characters_pos c rest
      have hsplit := characters_append_drop c rest
      have hshorter : ((c :: rest).drop (piece c rest).characters.length).length < n := by
        rw [List.length_drop]
        rw [List.length_cons] at hsize ⊢
        omega
      rw [scan_cons] at h
      -- The first token that was taken is that of the first piece, if it has one.
      obtain ⟨later', htaken, hlater'⟩ : ∃ later', taken = (piece c rest).lexemes offset ++ later' ∧
          scan (offset + size (piece c rest).characters)
            ((c :: rest).drop (piece c rest).characters.length) = later' ++ later := by
        cases hpiece : piece c rest with
        | skipped cs => exact ⟨taken, rfl, by simpa [hpiece, Piece.lexemes] using h⟩
        | found token cs =>
          obtain ⟨first, more, rfl⟩ := List.exists_cons_of_ne_nil hnil
          simp only [hpiece, Piece.lexemes, List.cons_append, List.nil_append, List.cons.injEq] at h
          exact ⟨more, by rw [← h.1]; rfl, h.2⟩
      obtain ⟨slice, behind, hslice, hscan, hempty, hstop⟩ := ih _ hshorter hlater' rfl
      refine ⟨(piece c rest).characters ++ slice, behind, ?_, ?_, fun hnil' => absurd hnil' hnil, ?_⟩
      · rw [List.append_assoc, ← hslice, hsplit]
      · rw [scan_piece_append ⟨behind, hslice.symm⟩, hscan, htaken]
      · intro last hlast
        rw [Source.size_append, ← Nat.add_assoc]
        rw [htaken, List.getLast?_append] at hlast
        cases hlater : later'.getLast? with
        | some last' =>
          rw [hlater] at hlast
          cases hlast
          exact hstop last hlater
        | none =>
          obtain rfl := List.getLast?_eq_none_iff.1 hlater
          obtain rfl := hempty rfl
          cases hpiece : piece c rest with
          | skipped cs => simp [hpiece, Piece.lexemes] at hlast
          | found token cs =>
            simp only [hpiece, Piece.lexemes, List.getLast?_nil, List.getLast?_singleton,
              Option.none_or] at hlast
            cases hlast
            rfl

/-- What is left of the tokens of a text are the tokens of the characters from the first one on. -/
theorem exists_scan_suffix {first : Lexeme} {more : List Lexeme}
    (h : first :: more <:+ scan offset text) :
    ∃ front behind, text = front ++ behind ∧ first.span.start = offset + size front ∧
      scan (offset + size front) behind = first :: more := by
  induction hsize : text.length using Nat.strongRecOn generalizing text offset with
  | ind n ih =>
    cases text with
    | nil =>
      rw [scan_nil] at h
      cases List.suffix_nil.1 h
    | cons c rest =>
      have hpos := length_characters_pos c rest
      have hsplit := characters_append_drop c rest
      have hshorter : ((c :: rest).drop (piece c rest).characters.length).length < n := by
        rw [List.length_drop]
        rw [List.length_cons] at hsize ⊢
        omega
      have hlater (h : first :: more <:+ scan (offset + size (piece c rest).characters)
          ((c :: rest).drop (piece c rest).characters.length)) :
          ∃ front behind, c :: rest = front ++ behind ∧ first.span.start = offset + size front ∧
            scan (offset + size front) behind = first :: more := by
        obtain ⟨front, behind, heq, hstart, hscan⟩ := ih _ hshorter h rfl
        refine ⟨(piece c rest).characters ++ front, behind, ?_, ?_, ?_⟩
        · rw [List.append_assoc, ← heq, hsplit]
        · rw [Source.size_append, ← Nat.add_assoc, hstart]
        · rw [Source.size_append, ← Nat.add_assoc, hscan]
      rw [scan_cons] at h
      cases hpiece : piece c rest with
      | skipped cs =>
        refine hlater ?_
        simpa [hpiece, Piece.lexemes] using h
      | found token cs =>
        simp only [hpiece, Piece.lexemes, List.cons_append, List.nil_append,
          Piece.characters] at h
        rcases List.suffix_cons_iff.1 h with heq | hsuffix
        · refine ⟨[], c :: rest, rfl, ?_, ?_⟩
          · cases heq
            rfl
          · rw [heq, size, Nat.add_zero, scan_cons, hpiece]
            rfl
        · refine hlater ?_
          rw [hpiece]
          exact hsuffix

/-- The tokens from one place of a text to another are those of a part of the text, which begins
where the first of them does and ends where the last does. -/
theorem exists_slice {text : String} {taken later : List Lexeme} {first last : Lexeme}
    (h : taken ++ later <:+ tokens text) (hfirst : taken.head? = some first)
    (hlast : taken.getLast? = some last) :
    ∃ front slice behind, text.toList = front ++ slice ++ behind ∧ size front = first.span.start ∧
      size (front ++ slice) = last.span.stop ∧
      taken = (tokens (String.ofList slice)).map (Lexeme.shift first.span.start) := by
  obtain ⟨more, rfl⟩ := List.head?_eq_some_iff.1 hfirst
  obtain ⟨front, behind, htext, hstart, hscan⟩ := exists_scan_suffix h
  obtain ⟨slice, behind, rfl, hslice, -, hstop⟩ :=
    exists_scan_eq (show scan _ behind = (first :: more) ++ later from hscan)
  rw [Nat.zero_add] at hstart hslice hstop
  refine ⟨front, slice, behind, ?_, hstart.symm, ?_, ?_⟩
  · rw [htext, List.append_assoc]
  · rw [Source.size_append]
    exact (hstop last hlast).symm
  · rw [tokens, String.toList_ofList, ← scan_add, Nat.add_zero, hstart, hslice]

end Kaleidoscope.Lexer
