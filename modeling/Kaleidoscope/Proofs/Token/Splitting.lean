import Kaleidoscope.Proofs.Parser.Continuation
import Kaleidoscope.Proofs.Source.Places
import Kaleidoscope.Token.Lexer

/-!
# Texts that are put together

A text can be cut at a symbol and at the end of a line: no token goes across. So the tokens of a
text are those of its parts, one part after the other, each part at its place in the whole. Only a
comment may hide what is behind it, up to the end of its line.
-/

namespace Kaleidoscope

namespace Lexer

open Source (size)

variable {c d : Char} {p q rest text : List Char} {offset : Nat}

/-- Is a comment open at the end of a text, given whether one is at its beginning? -/
def commentOpen (inside : Bool) : List Char → Bool
  | [] => inside
  | c :: rest => commentOpen (c ≠ '\n' && (inside || c = '#')) rest

/-- Whether a comment is open is carried from one text into the next. -/
theorem commentOpen_append (inside : Bool) (p q : List Char) :
    commentOpen inside (p ++ q) = commentOpen (commentOpen inside p) q := by
  induction p generalizing inside with
  | nil => rfl
  | cons c rest ih => exact ih _

/-- What no comment hides within a comment, none hides outside of it. -/
theorem commentOpen_false (h : commentOpen true text = false) : commentOpen false text = false := by
  induction text with
  | nil => cases h
  | cons c rest ih =>
    simp only [commentOpen, Bool.true_or, Bool.false_or, Bool.and_true] at h ⊢
    by_cases hc : c = '#'
    · simpa [hc] using h
    · by_cases hline : c = '\n'
      · simpa [hline] using h
      · simpa [hc, hline] using ih (by simpa [hline] using h)

/-- Whether a comment is open at the end is decided by any end piece that a comment reaches into. -/
theorem commentOpen_suffix (h : commentOpen false (p ++ q) = false) :
    commentOpen false q = false := by
  rw [commentOpen_append] at h
  cases hopen : commentOpen false p with
  | true =>
    rw [hopen] at h
    exact commentOpen_false h
  | false =>
    rw [hopen] at h
    exact h

/-- A comment that is not open at the end has been ended by the end of its line. -/
theorem newline_mem (h : commentOpen true text = false) : '\n' ∈ text := by
  induction text with
  | nil => cases h
  | cons c rest ih =>
    by_cases hline : c = '\n'
    · exact hline ▸ List.mem_cons_self
    · exact List.mem_cons_of_mem _ (ih (by simpa [commentOpen, hline] using h))

/-- The tokens of a piece. -/
def Piece.lexemes (offset : Nat) : Piece → List Lexeme
  | skipped _ => []
  | found token cs => [⟨token, ⟨offset, offset + size cs⟩⟩]

/-- An empty text has no tokens. -/
theorem scan_nil (offset : Nat) : scan offset [] = [] := by
  rw [scan]

/-- The tokens of a text are those of its first piece and those of what is behind it. -/
theorem scan_cons (offset : Nat) (c : Char) (rest : List Char) :
    scan offset (c :: rest) = (piece c rest).lexemes offset ++
      scan (offset + size (piece c rest).characters)
        ((c :: rest).drop (piece c rest).characters.length) := by
  rw [scan]
  cases piece c rest with
  | skipped cs => rfl
  | found token cs => rfl

/-- A piece stands at the start of the text. -/
theorem characters_isPrefix (c : Char) (rest : List Char) :
    (piece c rest).characters <+: c :: rest := by
  have hone : [c] <+: c :: rest := ⟨rest, rfl⟩
  have hmany (P : Char → Bool) : c :: rest.takeWhile P <+: c :: rest :=
    List.cons_prefix_cons.2 ⟨rfl, List.takeWhile_prefix P⟩
  unfold piece
  split
  · exact hone
  · split
    · exact hmany _
    · split
      · exact hmany _
      · split
        · exact hmany _
        · exact hone

/-- The characters of the first piece and those behind it are those of the text. -/
theorem characters_append_drop (c : Char) (rest : List Char) :
    (piece c rest).characters ++ (c :: rest).drop (piece c rest).characters.length = c :: rest :=
  List.prefix_iff_eq_append.1 (characters_isPrefix c rest)

/-- Tokens stand where their text does. -/
theorem scan_add (k offset : Nat) (text : List Char) :
    scan (k + offset) text = (scan offset text).map (Lexeme.shift k) := by
  induction hsize : text.length using Nat.strongRecOn generalizing text offset with
  | ind n ih =>
    cases text with
    | nil =>
      rw [scan_nil, scan_nil]
      rfl
    | cons c rest =>
      have hpos := length_characters_pos c rest
      have hlater := ih ((c :: rest).drop (piece c rest).characters.length).length
        (by rw [List.length_drop]; rw [List.length_cons] at hsize ⊢; omega)
        (offset + size (piece c rest).characters) _ rfl
      rw [scan_cons, scan_cons, List.map_append, Nat.add_assoc, hlater]
      cases piece c rest with
      | skipped cs => rfl
      | found token cs =>
        simp only [Piece.lexemes, Piece.characters, List.map_cons, List.map_nil, Lexeme.shift,
          Span.shift, Nat.add_assoc]

/-- A run of characters ends before one that does not belong to it. -/
theorem takeWhile_append_cons {P : Char → Bool} (hd : P d = false) (p q : List Char) :
    (p ++ d :: q).takeWhile P = p.takeWhile P := by
  induction p with
  | nil => simp [hd]
  | cons c rest ih => simp [List.takeWhile_cons, ih]

/-- A run of characters ends before the first one that does not belong to it. -/
theorem takeWhile_append_of_mem {P : Char → Bool} (hmem : d ∈ p) (hd : P d = false)
    (q : List Char) : (p ++ q).takeWhile P = p.takeWhile P := by
  obtain ⟨before, behind, rfl⟩ := List.append_of_mem hmem
  rw [List.append_assoc, List.cons_append, takeWhile_append_cons hd, takeWhile_append_cons hd]

/-- No piece goes across a character that belongs to no word and no number, unless it is a
comment. -/
theorem piece_append (hword : d.isAlphanum = false) (hnumeral : Number.isLiteralChar d = false)
    (hcomment : d = '\n' ∨ commentOpen false (c :: rest) = false) (q : List Char) :
    piece c (rest ++ d :: q) = piece c rest := by
  unfold piece
  split
  · rfl
  · split
    · rename_i hc
      have hline : (rest ++ d :: q).takeWhile (· ≠ '\n') = rest.takeWhile (· ≠ '\n') := by
        rcases hcomment with rfl | hclosed
        · exact takeWhile_append_cons (by decide) _ _
        · subst hc
          exact takeWhile_append_of_mem (newline_mem hclosed) (by decide) _
      rw [hline]
    · split
      · rw [takeWhile_append_cons hword]
      · split
        · rw [takeWhile_append_cons hnumeral]
        · rfl

/-- A text can be cut before a character that belongs to no word, no number and no comment. -/
theorem scan_append (hword : d.isAlphanum = false) (hnumeral : Number.isLiteralChar d = false)
    (hcomment : d = '\n' ∨ commentOpen false p = false) (offset : Nat) (q : List Char) :
    scan offset (p ++ d :: q) = scan offset p ++ scan (offset + size p) (d :: q) := by
  induction hsize : p.length using Nat.strongRecOn generalizing p offset with
  | ind n ih =>
    cases p with
    | nil =>
      rw [scan_nil]
      rfl
    | cons c rest =>
      have hpos := length_characters_pos c rest
      have hsplit := characters_append_drop c rest
      have hle := (characters_isPrefix c rest).length_le
      rw [List.cons_append, scan_cons, scan_cons, piece_append hword hnumeral hcomment,
        ← List.cons_append, List.drop_append_of_le_length hle]
      have hbehind : d = '\n' ∨
          commentOpen false ((c :: rest).drop (piece c rest).characters.length) = false :=
        hcomment.imp_right fun h => commentOpen_suffix (hsplit.symm ▸ h)
      rw [ih ((c :: rest).drop (piece c rest).characters.length).length
        (by rw [List.length_drop]; rw [List.length_cons] at hsize ⊢; omega) hbehind _ rfl]
      rw [List.append_assoc, Nat.add_assoc, ← Source.size_append, hsplit]

/-- A semicolon is a token of its own. -/
theorem scan_semicolon (offset : Nat) (q : List Char) :
    scan offset (';' :: q) = ⟨.symbol ';', ⟨offset, offset + 1⟩⟩ :: scan (offset + 1) q := by
  rw [scan_cons]
  rfl

/-- The end of a line is blank. -/
theorem scan_newline (offset : Nat) (q : List Char) :
    scan offset ('\n' :: q) = scan (offset + 1) q := by
  rw [scan_cons]
  rfl

/-- A text can be cut behind a semicolon that is no part of a comment. -/
theorem scan_append_semicolon (h : commentOpen false p = false) (q : List Char) :
    scan 0 (p ++ ';' :: q) =
      scan 0 p ++ ⟨.symbol ';', ⟨size p, size p + 1⟩⟩ ::
        (scan 0 q).map (Lexeme.shift (size p + 1)) := by
  rw [scan_append (by decide) (by decide) (.inr h), Nat.zero_add, scan_semicolon, ← scan_add]

/-- A text can be cut at the end of a line. -/
theorem scan_append_newline (p q : List Char) :
    scan 0 (p ++ '\n' :: q) =
      scan 0 p ++ (scan 0 q).map (Lexeme.shift (size p + 1)) := by
  rw [scan_append (by decide) (by decide) (.inl rfl), Nat.zero_add, scan_newline, ← scan_add]

/-- A text can be cut between its lines. -/
theorem scan_append_line (h : q ≠ [] → ∃ front, p = front ++ ['\n']) :
    scan 0 (p ++ q) = scan 0 p ++ (scan 0 q).map (Lexeme.shift (size p)) := by
  by_cases hq : q = []
  · rw [hq, scan_nil, List.append_nil, List.map_nil, List.append_nil]
  · obtain ⟨front, rfl⟩ := h hq
    have hline : scan 0 (front ++ ['\n']) = scan 0 front := by
      rw [scan_append_newline, scan_nil, List.map_nil, List.append_nil]
    have hsize : size (front ++ ['\n']) = size front + 1 := Source.size_append _ _
    rw [hline, hsize, List.append_assoc, List.singleton_append, scan_append_newline]

/-- Behind the end of a line, the tokens of a text are shifted and otherwise the same. -/
theorem tokens_append_line (h : q ≠ [] → ∃ front, p = front ++ ['\n']) :
    tokens (String.ofList p ++ String.ofList q) = tokens (String.ofList p) ++
      (tokens (String.ofList q)).map (Lexeme.shift (size (String.ofList p).toList)) := by
  simp only [tokens, String.toList_append, String.toList_ofList]
  exact scan_append_line h

/-- If a text ends with a semicolon, its last lines do. -/
theorem ended_of_append_line (h : q ≠ [] → ∃ front, p = front ++ ['\n'])
    (hended : Ended (scan 0 (p ++ q))) : Ended (scan 0 q) := by
  rw [scan_append_line h] at hended
  exact (hended.suffix (List.suffix_append _ _)).of_map_shift

/-- Unless a comment is open, the text behind a semicolon is read as if it stood alone. -/
theorem tokens_append_semicolon {p : String} (h : commentOpen false p.toList = false) (q : String) :
    tokens (p ++ ";" ++ q) =
        tokens (p ++ ";") ++ (tokens q).map (Lexeme.shift (size p.toList + 1)) ∧
      Ended (tokens (p ++ ";")) := by
  have hcut := scan_append_semicolon h []
  rw [scan_nil, List.map_nil] at hcut
  have hfirst : tokens (p ++ ";") =
      scan 0 p.toList ++ [⟨.symbol ';', ⟨size p.toList, size p.toList + 1⟩⟩] := by
    rw [tokens, String.toList_append]
    exact hcut
  refine ⟨?_, ?_⟩
  · rw [hfirst, tokens, String.toList_append, String.toList_append, List.append_assoc,
      List.append_assoc]
    exact scan_append_semicolon h q.toList
  · rw [hfirst]
    intro last hlast
    rw [List.getLast?_concat, Option.mem_some_iff] at hlast
    subst hlast
    rfl

end Lexer

end Kaleidoscope
