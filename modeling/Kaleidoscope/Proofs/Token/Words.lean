import Kaleidoscope.Token.Lexer
import Mathlib.Tactic.Basic

/-!
# What identifiers are made of

An identifier is a run of letters and digits. So no identifier spells the name of a function that is
behind an operator, nor that of a bare expression.
-/

namespace Kaleidoscope.Lexer

variable {name : String} {text : List Char} {offset : Nat}

/-- Digits are no letters. -/
theorem isAlpha_of_isDigit {c : Char} (h : c.isDigit) : c.isAlpha = false := by
  -- Each class is a range of code points, and the three ranges lie apart.
  delta Char.isDigit at h
  delta Char.isAlpha Char.isUpper Char.isLower
  simp only [Bool.and_eq_true, decide_eq_true_eq, Bool.or_eq_false_iff, Bool.and_eq_false_iff,
    decide_eq_false_iff_not, ge_iff_le, UInt32.le_iff_toNat_le, Char.reduceVal,
    UInt32.reduceToNat] at h ⊢
  omega

/-- A word that is no reserved one is the identifier of its characters. -/
theorem word_eq_identifier {cs : List Char} (h : word cs = .identifier name) :
    name = String.ofList cs := by
  rw [word] at h
  cases hspelling : Keyword.ofSpelling? (String.ofList cs) with
  | some k =>
    rw [hspelling] at h
    cases h
  | none =>
    rw [hspelling] at h
    cases h
    rfl

/-- A letter with letters and digits behind it. -/
def IsWord (name : String) : Prop :=
  ∃ first rest, name.toList = first :: rest ∧ first.isAlpha ∧ ∀ c ∈ rest, c.isAlphanum

/-- A word is made of letters and digits. -/
theorem IsWord.isAlphanum (h : IsWord name) : ∀ c ∈ name.toList, c.isAlphanum := by
  obtain ⟨first, rest, heq, hfirst, hrest⟩ := h
  rw [heq]
  exact List.forall_mem_cons.2 ⟨by rw [Char.isAlphanum, hfirst, Bool.true_or], hrest⟩

/-- A word begins with a letter and is made of letters and digits. -/
theorem isWord_iff : IsWord name ↔
    name.toList.head?.any Char.isAlpha ∧ name.toList.all Char.isAlphanum := by
  constructor
  · intro h
    obtain ⟨first, rest, heq, hfirst, -⟩ := id h
    exact ⟨by rw [heq]; exact hfirst, List.all_eq_true.2 h.isAlphanum⟩
  · rintro ⟨hfirst, hall⟩
    obtain ⟨first, hhead, halpha⟩ := (Option.any_eq_true _ _).1 hfirst
    obtain ⟨rest, heq⟩ := List.head?_eq_some_iff.1 hhead
    rw [heq, List.all_cons, Bool.and_eq_true] at hall
    exact ⟨first, rest, heq, halpha, List.all_eq_true.1 hall.2⟩

instance (name : String) : Decidable (IsWord name) := decidable_of_iff _ isWord_iff.symm

/-- An identifier that stands at the start of a text is a word. -/
theorem isWord_of_piece {c : Char} {rest cs : List Char}
    (h : piece c rest = .found (.identifier name) cs) : IsWord name := by
  unfold piece at h
  split at h
  · cases h
  · split at h
    · cases h
    · split at h
      · rename_i halpha
        obtain ⟨hword, -⟩ := Piece.found.inj h
        refine ⟨c, rest.takeWhile Char.isAlphanum, ?_, halpha, List.all_eq_true.1 List.all_takeWhile⟩
        rw [word_eq_identifier hword, String.toList_ofList]
      · split at h
        · obtain ⟨hnumeral, -⟩ := Piece.found.inj h
          unfold numeral at hnumeral
          split at hnumeral
          · cases hnumeral
          · cases hnumeral
        · cases (Piece.found.inj h).1

/-- A symbol that stands at the start of a text is neither a blank nor a letter. -/
theorem isBlank_isAlpha_of_piece {c d : Char} {rest cs : List Char}
    (h : piece c rest = .found (.symbol d) cs) : isBlank d = false ∧ d.isAlpha = false := by
  unfold piece at h
  split at h
  · cases h
  · rename_i hblank
    split at h
    · cases h
    · split at h
      · obtain ⟨hword, -⟩ := Piece.found.inj h
        unfold word at hword
        simp only at hword
        split at hword
        · cases hword
        · cases hword
      · rename_i halpha
        split at h
        · obtain ⟨hnumeral, -⟩ := Piece.found.inj h
          unfold numeral at hnumeral
          split at hnumeral
          · cases hnumeral
          · cases hnumeral
        · obtain ⟨hsymbol, -⟩ := Piece.found.inj h
          cases hsymbol
          exact ⟨Bool.eq_false_iff.2 hblank, Bool.eq_false_iff.2 halpha⟩

/-- Every token of a text stood at the start of what was left of it. -/
theorem exists_piece_of_mem_scan {lexeme : Lexeme} (h : lexeme ∈ scan offset text) :
    ∃ c rest cs, piece c rest = .found lexeme.token cs := by
  fun_induction scan offset text with
  | case1 => cases h
  | case2 offset c rest found stop later cs hfound ih => exact ih h
  | case3 offset c rest found stop later token cs hfound ih =>
    rcases List.mem_cons.1 h with rfl | h
    · exact ⟨c, rest, cs, hfound⟩
    · exact ih h

/-- The identifiers among tokens are made of letters and digits. -/
def NamesAreWords (tokens : List Lexeme) : Prop :=
  ∀ lexeme ∈ tokens, ∀ name, lexeme.token = .identifier name → ∀ c ∈ name.toList, c.isAlphanum

/-- The identifiers of every text are made of letters and digits. -/
theorem namesAreWords_tokens (text : String) : NamesAreWords (tokens text) := by
  intro lexeme hmem name hname
  obtain ⟨c, rest, cs, hpiece⟩ := exists_piece_of_mem_scan hmem
  exact (isWord_of_piece (hname ▸ hpiece)).isAlphanum

/-- What is left of tokens has no other identifiers. -/
theorem NamesAreWords.suffix {tokens rest : List Lexeme} (h : NamesAreWords tokens)
    (hsuffix : rest <:+ tokens) : NamesAreWords rest :=
  fun lexeme hmem => h lexeme (hsuffix.subset hmem)

end Kaleidoscope.Lexer
