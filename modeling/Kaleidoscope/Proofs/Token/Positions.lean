import Kaleidoscope.Proofs.Token.Splitting

/-!
# Where tokens stand

The tokens of a text delimit parts of it between characters, whatever the characters are, and each
part lies behind the one before. So the next token of what is left is never further to the front
than the next token was.
-/

namespace Kaleidoscope

open Source (Cuts Delimits size)

namespace Lexer

variable {text : List Char} {tokens rest : List Lexeme}

/-- Every token delimits a part of the text, and no token begins before those in front of it end. -/
structure InOrder (text : List Char) (tokens : List Lexeme) : Prop where
  delimits : ∀ lexeme ∈ tokens, Delimits text lexeme.span
  apart : tokens.Pairwise fun a b => a.span.stop ≤ b.span.start

/-- The tokens that are left are still in order. -/
theorem InOrder.suffix (h : InOrder text tokens) (hsuffix : rest <:+ tokens) : InOrder text rest where
  delimits lexeme hmem := h.delimits lexeme (hsuffix.subset hmem)
  apart := h.apart.sublist hsuffix.sublist

/-- A piece delimits a part of the text. -/
theorem delimits_piece (front : List Char) (c : Char) (rest : List Char) :
    Delimits (front ++ c :: rest)
      ⟨size front, size front + size (piece c rest).characters⟩ := by
  have hsplit : front ++ c :: rest = front ++ (piece c rest).characters ++
      (c :: rest).drop (piece c rest).characters.length := by
    rw [List.append_assoc, characters_append_drop]
  exact ⟨⟨front, _, rfl, rfl⟩, ⟨_, _, hsplit, Source.size_append _ _⟩, Nat.le_add_right _ _⟩

/-- The tokens of an end piece of a text are in order, and none of them begins before it. -/
theorem inOrder_scan (front behind : List Char) :
    InOrder (front ++ behind) (scan (size front) behind) ∧
      ∀ lexeme ∈ scan (size front) behind, size front ≤ lexeme.span.start := by
  induction hsize : behind.length using Nat.strongRecOn generalizing front behind with
  | ind n ih =>
    cases behind with
    | nil =>
      rw [scan_nil]
      exact ⟨⟨nofun, .nil⟩, nofun⟩
    | cons c rest =>
      have hpos := length_characters_pos c rest
      have hsplit := characters_append_drop c rest
      have hbytes : size (front ++ (piece c rest).characters) =
          size front + size (piece c rest).characters := Source.size_append _ _
      obtain ⟨⟨hdelimits, hapart⟩, hbehind⟩ :=
        ih ((c :: rest).drop (piece c rest).characters.length).length
          (by rw [List.length_drop]; rw [List.length_cons] at hsize ⊢; omega)
          (front ++ (piece c rest).characters) _ rfl
      rw [hbytes] at hdelimits hapart hbehind
      rw [List.append_assoc, hsplit] at hdelimits
      rw [scan_cons]
      have hlater (lexeme : Lexeme) (hmem : lexeme ∈ _) : size front ≤ lexeme.span.start :=
        Nat.le_trans (Nat.le_add_right _ _) (hbehind lexeme hmem)
      have hfirst := delimits_piece front c rest
      cases hpiece : piece c rest with
      | skipped cs =>
        simp only [hpiece] at hdelimits hapart hlater
        exact ⟨⟨hdelimits, hapart⟩, hlater⟩
      | found token cs =>
        simp only [hpiece] at hfirst hdelimits hapart hbehind hlater
        exact ⟨⟨List.forall_mem_cons.2 ⟨hfirst, hdelimits⟩, List.pairwise_cons.2 ⟨hbehind, hapart⟩⟩,
          List.forall_mem_cons.2 ⟨Nat.le_refl _, hlater⟩⟩

/-- The tokens of a text are in order. -/
theorem inOrder_tokens (text : String) : InOrder text.toList (Lexer.tokens text) :=
  (inOrder_scan [] text.toList).1

end Lexer

namespace Parser

open Lexer (InOrder)

variable {text : List Char} {tokens rest : List Lexeme}

/-- What comes next delimits a part of the text, if only its end. -/
theorem delimits_nextSpan (h : InOrder text tokens) : Delimits text (nextSpan (size text) tokens) := by
  cases tokens with
  | nil => exact ⟨Source.cuts_size text, Source.cuts_size text, Nat.le_refl _⟩
  | cons first more => exact h.delimits first List.mem_cons_self

/-- What comes next comes later when fewer tokens are left. -/
theorem nextSpan_start_le (h : InOrder text tokens) (hsuffix : rest <:+ tokens) :
    (nextSpan (size text) tokens).start ≤ (nextSpan (size text) rest).start := by
  induction tokens with
  | nil => exact List.suffix_nil.1 hsuffix ▸ Nat.le_refl _
  | cons first more ih =>
    rcases List.suffix_cons_iff.1 hsuffix with rfl | hmore
    · exact Nat.le_refl _
    · refine Nat.le_trans ?_ (ih (h.suffix (List.suffix_cons _ _)) hmore)
      have hfirst := h.delimits first List.mem_cons_self
      refine Nat.le_trans hfirst.le ?_
      cases more with
      | nil => exact hfirst.stop.le_size
      | cons second later => exact List.rel_of_pairwise_cons h.apart List.mem_cons_self

/-- From the first token up to another one is a part of the text. -/
theorem delimits_spanUpTo (h : InOrder text tokens) (hlength : rest.length < tokens.length) :
    Delimits text (spanUpTo tokens rest) ∧
      (spanUpTo tokens rest).start = (nextSpan (size text) tokens).start := by
  cases tokens with
  | nil => exact (Nat.not_lt_zero _ hlength).elim
  | cons first more =>
    have htaken : (first :: more).take ((first :: more).length - rest.length) ≠ [] := by
      rw [ne_eq, List.take_eq_nil_iff]
      rintro (hzero | hnil)
      · omega
      · cases hnil
    have hlast := List.getLast?_eq_some_getLast htaken
    have hmem : ((first :: more).take ((first :: more).length - rest.length)).getLast htaken ∈
        first :: more := List.mem_of_mem_take (List.getLast_mem htaken)
    revert hlast hmem
    generalize List.getLast _ htaken = last
    intro hlast hmem
    have hfirst := h.delimits first List.mem_cons_self
    have hend := h.delimits last hmem
    have hle : first.span.start ≤ last.span.stop := by
      rcases List.mem_cons.1 hmem with rfl | hmore
      · exact hfirst.le
      · have hapart := List.rel_of_pairwise_cons h.apart hmore
        exact Nat.le_trans hfirst.le (Nat.le_trans hapart hend.le)
    have hspan : spanUpTo (first :: more) rest = ⟨first.span.start, last.span.stop⟩ := by
      unfold spanUpTo
      rw [hlast]
    rw [hspan]
    exact ⟨⟨hfirst.start, hend.stop, hle⟩, rfl⟩

end Parser

end Kaleidoscope
