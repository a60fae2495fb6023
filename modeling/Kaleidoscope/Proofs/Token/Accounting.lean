import Kaleidoscope.Proofs.Token.Positions
import Kaleidoscope.Proofs.Token.Words

/-!
# Every character is accounted for

Which characters form which token is said here by rules of their own, without the way in which a
text is scanned. A text is accounted for by tokens if it is made of them, of blanks and of comments
that run to the end of their line, and if each token is the longest one that could begin at its
place. The tokens of a text account for it, and no others do.
-/

namespace Kaleidoscope.Lexer

open Source (size)

variable {c : Char} {cs rest text run : List Char} {token token' : Token} {offset : Nat}
  {lexemes : List Lexeme}

/-- The run spells a number: there is a digit in it, and one point at most. -/
def SpellsNumber (run : List Char) : Prop := (∃ c ∈ run, c.isDigit) ∧ run.count '.' ≤ 1

/-- The number nearest to the decimal that a run of digits with a point spells. -/
def nearest (run : List Char) : Float :=
  .ofScientific (Number.ofDigits (run.filter Char.isDigit)) true
    ((run.dropWhile (· ≠ '.')).drop 1).length

/-- The characters form the token. A letter with letters and digits behind it is a reserved word if
it is spelled like one, and an identifier if not. Digits and points are a number if they spell one,
and malformed if not. Every other character that neither is a blank nor begins a comment is a
symbol. -/
inductive Forms : Token → List Char → Prop where
  | keyword (k : Keyword) : Forms (.keyword k) k.spelling.toList
  | identifier {name : String} : IsWord name → (∀ k : Keyword, k.spelling ≠ name) →
      Forms (.identifier name) name.toList
  | number {run : List Char} : run ≠ [] → (∀ c ∈ run, Number.isLiteralChar c) → SpellsNumber run →
      Forms (.number (nearest run)) run
  | malformed {run : List Char} : run ≠ [] → (∀ c ∈ run, Number.isLiteralChar c) → ¬ SpellsNumber run →
      Forms .malformed run
  | symbol {c : Char} : isBlank c = false → c ≠ '#' → c.isAlpha = false →
      Number.isLiteralChar c = false → Forms (.symbol c) [c]

/-- The text is made of blanks, comments and the given tokens. It begins at a byte offset of the
source. A comment runs to the end of its line, and no token could have been longer. -/
inductive Accounted : Nat → List Char → List Lexeme → Prop where
  | nil {offset : Nat} : Accounted offset [] []
  | blank {offset : Nat} {c : Char} {rest : List Char} {lexemes : List Lexeme} : isBlank c →
      Accounted (offset + size [c]) rest lexemes → Accounted offset (c :: rest) lexemes
  | comment {offset : Nat} {cs rest : List Char} {lexemes : List Lexeme} : '\n' ∉ cs →
      (∀ c ∈ rest.head?, c = '\n') → Accounted (offset + size ('#' :: cs)) rest lexemes →
      Accounted offset ('#' :: cs ++ rest) lexemes
  | token {offset : Nat} {token : Token} {cs rest : List Char} {lexemes : List Lexeme} :
      Forms token cs →
      (∀ token' cs', Forms token' cs' → cs' <+: cs ++ rest → cs'.length ≤ cs.length) →
      Accounted (offset + size cs) rest lexemes →
      Accounted offset (cs ++ rest) (⟨token, ⟨offset, offset + size cs⟩⟩ :: lexemes)

/-- A word is reserved exactly if it is spelled like a reserved one. -/
theorem ofSpelling?_eq_none_iff {name : String} :
    Keyword.ofSpelling? name = none ↔ ∀ k : Keyword, k.spelling ≠ name := by
  rw [Keyword.ofSpelling?, List.find?_eq_none]
  refine ⟨fun h k => ?_, fun h k _ => by simpa using h k⟩
  have hall : k ∈ Keyword.all := by cases k <;> decide
  simpa using h k hall

/-- Reserved words are words. -/
theorem isWord_spelling (k : Keyword) : IsWord k.spelling := by
  cases k <;> decide

/-- A word forms the token that is made of it. -/
theorem forms_word (h : IsWord (String.ofList cs)) : Forms (word cs) cs := by
  rw [word]
  cases hspelling : Keyword.ofSpelling? (String.ofList cs) with
  | some k =>
    have hfound := List.find?_some hspelling
    have heq : k.spelling = String.ofList cs := by simpa using hfound
    have hkeyword := Forms.keyword k
    rwa [heq, String.toList_ofList] at hkeyword
  | none =>
    have hidentifier := Forms.identifier h (ofSpelling?_eq_none_iff.1 hspelling)
    rwa [String.toList_ofList] at hidentifier

/-- There is a point behind the first one exactly if there are two. -/
theorem mem_places_iff : '.' ∈ (run.dropWhile (· ≠ '.')).drop 1 ↔ ¬ run.count '.' ≤ 1 := by
  induction run with
  | nil => simp
  | cons c rest ih =>
    by_cases hc : c = '.'
    · subst hc
      simp [← List.count_pos_iff, Nat.pos_iff_ne_zero]
    · simpa [hc] using ih

/-- What a run needs to spell a number is what is asked of it when it is read. -/
theorem not_spellsNumber_iff : ¬ SpellsNumber run ↔
    run.filter Char.isDigit = [] ∨ '.' ∈ (run.dropWhile (· ≠ '.')).drop 1 := by
  rw [mem_places_iff, SpellsNumber, List.filter_eq_nil_iff, not_and_or]
  simp

/-- A run that spells a number is read as the nearest one. -/
theorem ofLiteral?_eq_some (h : SpellsNumber run) : Number.ofLiteral? run = some (nearest run) := by
  rw [Number.ofLiteral?, if_neg (not_spellsNumber_iff.not.1 (not_not.2 h))]
  rfl

/-- A run that spells no number is malformed. -/
theorem ofLiteral?_eq_none (h : ¬ SpellsNumber run) : Number.ofLiteral? run = none := by
  rw [Number.ofLiteral?, if_pos (not_spellsNumber_iff.1 h)]

/-- Digits and points form the token that is made of them. -/
theorem forms_numeral (hne : run ≠ []) (h : ∀ c ∈ run, Number.isLiteralChar c) :
    Forms (numeral run) run := by
  by_cases hspells : SpellsNumber run
  · rw [numeral, ofLiteral?_eq_some hspells]
    exact .number hne h hspells
  · rw [numeral, ofLiteral?_eq_none hspells]
    exact .malformed hne h hspells

/-- Digits and points are no letters. -/
theorem isAlpha_of_isLiteralChar (h : Number.isLiteralChar c = true) : c.isAlpha = false := by
  rw [Number.isLiteralChar, Bool.or_eq_true, decide_eq_true_eq] at h
  rcases h with hdigit | rfl
  · exact isAlpha_of_isDigit hdigit
  · rfl

/-- A letter begins a word. -/
theorem piece_of_isAlpha (h : c.isAlpha = true) (rest : List Char) : piece c rest =
    .found (word (c :: rest.takeWhile Char.isAlphanum)) (c :: rest.takeWhile Char.isAlphanum) := by
  have hblank : isBlank c ≠ true := by
    intro hblank
    simp only [isBlank, Bool.or_eq_true, decide_eq_true_eq] at hblank
    rcases hblank with (((rfl | rfl) | rfl) | rfl) | rfl <;> exact absurd h (by decide)
  have hcomment : c ≠ '#' := by
    rintro rfl
    exact absurd h (by decide)
  rw [piece, if_neg hblank, if_neg hcomment, if_pos h]

/-- A digit or a point begins a number, or else a malformed token. -/
theorem piece_of_isLiteralChar (h : Number.isLiteralChar c = true) (rest : List Char) : piece c rest =
    .found (numeral (c :: rest.takeWhile Number.isLiteralChar))
      (c :: rest.takeWhile Number.isLiteralChar) := by
  have hblank : isBlank c ≠ true := by
    intro hblank
    simp only [isBlank, Bool.or_eq_true, decide_eq_true_eq] at hblank
    rcases hblank with (((rfl | rfl) | rfl) | rfl) | rfl <;> exact absurd h (by decide)
  have hcomment : c ≠ '#' := by
    rintro rfl
    exact absurd h (by decide)
  rw [piece, if_neg hblank, if_neg hcomment, isAlpha_of_isLiteralChar h,
    if_neg Bool.false_ne_true, if_pos h]

/-- What is found at the start of a text forms its token. -/
theorem forms_of_piece (h : piece c rest = .found token cs) : Forms token cs := by
  by_cases halpha : c.isAlpha = true
  · rw [piece_of_isAlpha halpha] at h
    obtain ⟨rfl, rfl⟩ := Piece.found.inj h
    refine forms_word ⟨c, _, String.toList_ofList, halpha, ?_⟩
    exact List.all_eq_true.1 List.all_takeWhile
  · by_cases hliteral : Number.isLiteralChar c = true
    · rw [piece_of_isLiteralChar hliteral] at h
      obtain ⟨rfl, rfl⟩ := Piece.found.inj h
      refine forms_numeral (List.cons_ne_nil _ _) (List.forall_mem_cons.2 ⟨hliteral, ?_⟩)
      exact List.all_eq_true.1 List.all_takeWhile
    · rw [piece, if_neg halpha, if_neg hliteral] at h
      split at h
      · cases h
      · rename_i hblank
        split at h
        · cases h
        · rename_i hcomment
          obtain ⟨rfl, rfl⟩ := Piece.found.inj h
          exact .symbol (Bool.eq_false_iff.2 hblank) hcomment (Bool.eq_false_iff.2 halpha)
            (Bool.eq_false_iff.2 hliteral)

/-- The first character of a token tells of which kind the others are, and all of them tell the
token. -/
theorem Forms.cases_first (h : Forms token cs) : ∃ first more, cs = first :: more ∧
    (first.isAlpha = true ∧ (∀ d ∈ more, d.isAlphanum) ∧ token = word cs ∨
      Number.isLiteralChar first = true ∧ (∀ d ∈ more, Number.isLiteralChar d) ∧ token = numeral cs ∨
      more = [] ∧ ∀ rest, piece first rest = .found token [first]) := by
  cases h with
  | keyword k =>
    obtain ⟨first, more, heq, hfirst, hmore⟩ := isWord_spelling k
    refine ⟨first, more, heq, .inl ⟨hfirst, hmore, ?_⟩⟩
    cases k <;> decide
  | @identifier name hword hname =>
    obtain ⟨first, more, heq, hfirst, hmore⟩ := hword
    refine ⟨first, more, heq, .inl ⟨hfirst, hmore, ?_⟩⟩
    rw [word, String.ofList_toList, ofSpelling?_eq_none_iff.2 hname]
  | number hne hrun hspells =>
    obtain ⟨first, more, rfl⟩ := List.exists_cons_of_ne_nil hne
    obtain ⟨hfirst, hmore⟩ := List.forall_mem_cons.1 hrun
    refine ⟨first, more, rfl, .inr (.inl ⟨hfirst, hmore, ?_⟩)⟩
    rw [numeral, ofLiteral?_eq_some hspells]
  | malformed hne hrun hspells =>
    obtain ⟨first, more, rfl⟩ := List.exists_cons_of_ne_nil hne
    obtain ⟨hfirst, hmore⟩ := List.forall_mem_cons.1 hrun
    refine ⟨first, more, rfl, .inr (.inl ⟨hfirst, hmore, ?_⟩)⟩
    rw [numeral, ofLiteral?_eq_none hspells]
  | symbol hblank hcomment halpha hliteral =>
    refine ⟨_, [], rfl, .inr (.inr ⟨rfl, fun rest => ?_⟩)⟩
    rw [piece, hblank, if_neg Bool.false_ne_true, if_neg hcomment, halpha, if_neg Bool.false_ne_true,
      hliteral, if_neg Bool.false_ne_true]

/-- A run of characters of one kind reaches no further than the longest one. -/
theorem length_le_takeWhile {P : Char → Bool} {more : List Char} (hmore : ∀ d ∈ more, P d)
    (hbegins : more <+: rest) : more.length ≤ (rest.takeWhile P).length := by
  obtain ⟨behind, rfl⟩ := hbegins
  rw [List.takeWhile_append_of_pos hmore, List.length_append]
  exact Nat.le_add_right _ _

/-- No token that could begin at the start of the text is longer than the one that is found. -/
theorem longest_of_piece (h : piece c rest = .found token cs) {cs' : List Char} (h' : Forms token' cs')
    (hbegins : cs' <+: c :: rest) : cs'.length ≤ cs.length := by
  obtain ⟨first, more, rfl, hkind⟩ := h'.cases_first
  obtain ⟨rfl, hmore⟩ := List.cons_prefix_cons.1 hbegins
  rcases hkind with ⟨halpha, halphanum, -⟩ | ⟨hliteral, hrun, -⟩ | ⟨rfl, hsymbol⟩
  · rw [piece_of_isAlpha halpha] at h
    obtain ⟨-, rfl⟩ := Piece.found.inj h
    exact Nat.succ_le_succ (length_le_takeWhile halphanum hmore)
  · rw [piece_of_isLiteralChar hliteral] at h
    obtain ⟨-, rfl⟩ := Piece.found.inj h
    exact Nat.succ_le_succ (length_le_takeWhile hrun hmore)
  · rw [hsymbol] at h
    obtain ⟨-, rfl⟩ := Piece.found.inj h
    exact Nat.le_refl _

/-- A run that is as long as the longest one is the longest one. -/
theorem takeWhile_eq_of_length_le {P : Char → Bool} {more : List Char} (hmore : ∀ d ∈ more, P d)
    (hle : ((more ++ rest).takeWhile P).length ≤ more.length) : (more ++ rest).takeWhile P = more := by
  rw [List.takeWhile_append_of_pos hmore] at hle ⊢
  rw [List.length_append] at hle
  have hnone : rest.takeWhile P = [] := List.length_eq_zero_iff.1 (by omega)
  rw [hnone, List.append_nil]

/-- The longest token that could begin at the start of the text is found there. -/
theorem piece_of_longest (h : Forms token cs)
    (hlongest : ∀ token' cs', Forms token' cs' → cs' <+: cs ++ rest → cs'.length ≤ cs.length) :
    ∃ first more, cs = first :: more ∧ piece first (more ++ rest) = .found token cs := by
  obtain ⟨first, more, rfl, hkind⟩ := h.cases_first
  refine ⟨first, more, rfl, ?_⟩
  have hfound {token' : Token} {run : List Char}
      (hpiece : piece first (more ++ rest) = .found token' (first :: run)) :
      run.length ≤ more.length := by
    have hcharacters := characters_isPrefix first (more ++ rest)
    rw [hpiece] at hcharacters
    exact Nat.le_of_succ_le_succ (hlongest _ _ (forms_of_piece hpiece) hcharacters)
  rcases hkind with ⟨halpha, halphanum, rfl⟩ | ⟨hliteral, hrun, rfl⟩ | ⟨rfl, hsymbol⟩
  · have hpiece := piece_of_isAlpha halpha (more ++ rest)
    rwa [takeWhile_eq_of_length_le halphanum (hfound hpiece)] at hpiece
  · have hpiece := piece_of_isLiteralChar hliteral (more ++ rest)
    rwa [takeWhile_eq_of_length_le hrun (hfound hpiece)] at hpiece
  · exact hsymbol _

/-- What is skipped at the start of a text is a blank, or a comment up to the end of its line. -/
theorem cases_skipped (h : piece c rest = .skipped cs) : isBlank c = true ∧ cs = [c] ∨
    c = '#' ∧ cs = '#' :: rest.takeWhile (· ≠ '\n') := by
  unfold piece at h
  split at h
  · rename_i hblank
    cases h
    exact .inl ⟨hblank, rfl⟩
  · split at h
    · rename_i hcomment
      cases h
      exact .inr ⟨hcomment, by rw [hcomment]⟩
    · split at h
      · cases h
      · split at h <;> cases h

/-- The tokens of a text account for it. -/
theorem accounted_scan (offset : Nat) (text : List Char) : Accounted offset text (scan offset text) := by
  induction hsize : text.length using Nat.strongRecOn generalizing text offset with
  | ind n ih =>
    cases text with
    | nil =>
      rw [scan_nil]
      exact .nil
    | cons c rest =>
      have hpos := length_characters_pos c rest
      have hlater := ih ((c :: rest).drop (piece c rest).characters.length).length
        (by rw [List.length_drop]; rw [List.length_cons] at hsize ⊢; omega)
        (offset + size (piece c rest).characters) _ rfl
      have hsplit := characters_append_drop c rest
      rw [scan_cons]
      cases hpiece : piece c rest with
      | skipped cs =>
        rw [hpiece] at hlater hsplit
        rcases cases_skipped hpiece with ⟨hblank, rfl⟩ | ⟨rfl, rfl⟩
        · exact .blank hblank hlater
        · have hline : ('#' :: rest).drop ('#' :: rest.takeWhile (· ≠ '\n')).length =
              rest.dropWhile (· ≠ '\n') := by
            have hwhole : '#' :: rest =
                ('#' :: rest.takeWhile (· ≠ '\n')) ++ rest.dropWhile (· ≠ '\n') := by
              rw [List.cons_append, List.takeWhile_append_dropWhile]
            exact List.append_cancel_left (hsplit.trans hwhole)
          simp only [Piece.characters] at hlater hsplit ⊢
          rw [hline] at hlater hsplit ⊢
          rw [← hsplit]
          refine .comment (fun hmem => ?_) (fun d hd => ?_) hlater
          · simpa using List.all_eq_true.1 List.all_takeWhile _ hmem
          · have hend := List.head?_dropWhile_not (· ≠ '\n') rest
            rw [hd] at hend
            simpa using hend
      | found token cs =>
        rw [hpiece] at hlater hsplit
        simp only [Piece.characters] at hlater hsplit ⊢
        have hlongest (token' : Token) (cs' : List Char) (h' : Forms token' cs')
            (hbegins : cs' <+: cs ++ (c :: rest).drop cs.length) : cs'.length ≤ cs.length :=
          longest_of_piece hpiece h' (hsplit ▸ hbegins)
        have haccounted := Accounted.token (forms_of_piece hpiece) hlongest hlater
        rwa [hsplit] at haccounted

/-- No other tokens account for it. -/
theorem scan_of_accounted (h : Accounted offset text lexemes) : scan offset text = lexemes := by
  induction h with
  | nil => exact scan_nil _
  | @blank offset c rest lexemes hblank _ ih =>
    have hpiece : piece c rest = .skipped [c] := by rw [piece, if_pos hblank]
    rw [scan_cons, hpiece]
    exact ih
  | @comment offset cs rest lexemes hline hend _ ih =>
    have htaken : (cs ++ rest).takeWhile (· ≠ '\n') = cs := by
      rw [List.takeWhile_append_of_pos fun d hd => by
        rw [decide_eq_true_eq]
        rintro rfl
        exact hline hd]
      cases rest with
      | nil => exact List.append_nil _
      | cons d rest =>
        rw [List.takeWhile_cons_of_neg (by simpa using hend d rfl), List.append_nil]
    have hpiece : piece '#' (cs ++ rest) = .skipped ('#' :: cs) := by
      rw [piece, if_neg (by decide), if_pos rfl, htaken]
    rw [List.cons_append, scan_cons, hpiece, Piece.characters, ← List.cons_append, List.drop_left]
    exact ih
  | @token offset token cs rest lexemes hforms hlongest _ ih =>
    obtain ⟨first, more, rfl, hpiece⟩ := piece_of_longest hforms hlongest
    rw [List.cons_append, scan_cons, hpiece, Piece.characters, ← List.cons_append, List.drop_left, ih]
    rfl

/-- Tokens are never empty. -/
theorem Accounted.start_lt_stop (h : Accounted offset text lexemes) :
    ∀ lexeme ∈ lexemes, lexeme.span.start < lexeme.span.stop := by
  induction h with
  | nil => nofun
  | blank _ _ ih => exact ih
  | comment _ _ _ ih => exact ih
  | token hforms _ _ ih =>
    obtain ⟨first, more, rfl, -⟩ := hforms.cases_first
    have := first.utf8Size_pos
    exact List.forall_mem_cons.2 ⟨by simp only [size]; omega, ih⟩

/-- The tokens of a text are the only ones that account for it. None of them is empty, and each lies
behind the one before. -/
theorem tokens_account (text : String) :
    (∀ lexemes, Accounted 0 text.toList lexemes ↔ lexemes = tokens text) ∧
      (∀ lexeme ∈ tokens text, lexeme.span.start < lexeme.span.stop) ∧
      (tokens text).Pairwise fun a b => a.span.stop ≤ b.span.start := by
  have haccounted : Accounted 0 text.toList (tokens text) := accounted_scan 0 text.toList
  refine ⟨fun lexemes => ⟨fun h => (scan_of_accounted h).symm, ?_⟩, haccounted.start_lt_stop,
    (inOrder_tokens text).apart⟩
  rintro rfl
  exact haccounted

end Kaleidoscope.Lexer
