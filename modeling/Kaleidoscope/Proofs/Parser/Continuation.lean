import Kaleidoscope.Proofs.Parser.Locality
import Kaleidoscope.Proofs.Parser.Statements
import Mathlib.Data.List.Basic

/-!
# Statements in front of other statements

Tokens that end with a semicolon give the same statements whatever follows them, and the tokens of a
text give the same statements wherever the text stands in a source, apart from their places.
-/

namespace Kaleidoscope

/-- A part of a source that has `k` more bytes in front of it. -/
def Span.shift (k : Nat) (span : Span) : Span := ⟨k + span.start, k + span.stop⟩

/-- A token of a source that has `k` more bytes in front of it. -/
def Lexeme.shift (k : Nat) (lexeme : Lexeme) : Lexeme := ⟨lexeme.token, lexeme.span.shift k⟩

/-- A value with its place in a source that has `k` more bytes in front of it. -/
def Located.shift {α : Type} (k : Nat) (located : Located α) : Located α :=
  ⟨located.value, located.span.shift k⟩

/-- There are no tokens, or a semicolon is the last one. -/
def Ended (tokens : List Lexeme) : Prop := ∀ last ∈ tokens.getLast?, last.token.endsStatement

/-- An end piece ends alike. -/
theorem Ended.suffix {tokens rest : List Lexeme} (h : Ended tokens) (hsuffix : rest <:+ tokens) :
    Ended rest := by
  obtain ⟨before, rfl⟩ := hsuffix
  intro last hlast
  refine h last ?_
  rw [List.getLast?_append, Option.mem_def.1 hlast]
  rfl

/-- Places do not matter for the end. -/
theorem Ended.of_map_shift {k : Nat} {tokens : List Lexeme}
    (h : Ended (tokens.map (Lexeme.shift k))) : Ended tokens := by
  intro last hlast
  refine h (last.shift k) ?_
  rw [List.getLast?_map, Option.mem_def.1 hlast]
  rfl

/-- Something comes behind a token that ends no statement. -/
theorem Ended.tail_ne_nil {first : Lexeme} {more : List Lexeme} (h : Ended (first :: more))
    (hfirst : first.token.endsStatement = false) : more ≠ [] := by
  rintro rfl
  have := h first rfl
  rw [hfirst] at this
  cases this

/-- Behind the last semicolon anything may follow. -/
theorem Ended.alike_append {tokens : List Lexeme} (h : Ended tokens) (hne : tokens ≠ [])
    (later : List Lexeme) : Alike (tokens ++ later) tokens := by
  induction tokens with
  | nil => exact (hne rfl).elim
  | cons first more ih =>
    cases hfirst : first.token.endsStatement with
    | true => exact .separator (by rw [Token.separates, hfirst]; rfl)
    | false => exact .cons (ih (h.suffix (List.suffix_cons _ _)) (h.tail_ne_nil hfirst))

/-- Tokens are taken from the front, and what follows behind the last semicolon stays. -/
theorem Alongside.eq_append {tokens later rest rest' : List Lexeme} (hended : Ended tokens)
    (hne : tokens ≠ []) (h : Alongside (tokens ++ later) tokens rest rest') :
    rest = rest' ++ later ∧ rest' ≠ [] ∧ rest' <:+ tokens := by
  induction tokens with
  | nil => exact (hne rfl).elim
  | cons first more ih =>
    generalize hwhole : first :: more ++ later = whole at h
    cases h with
    | here => exact ⟨hwhole.symm, hne, List.suffix_rfl⟩
    | past hsep hmore =>
      cases hwhole
      have hfirst : Token.endsStatement _ = false := (Bool.or_eq_false_iff.1 hsep).1
      obtain ⟨heq, hrest, hsuffix⟩ := ih (hended.suffix (List.suffix_cons _ _))
        (hended.tail_ne_nil hfirst) hmore
      exact ⟨heq, hrest, hsuffix.trans (List.suffix_cons _ _)⟩

/-- Places do not matter. -/
theorem alike_map_shift (k : Nat) (tokens : List Lexeme) :
    Alike tokens (tokens.map (Lexeme.shift k)) := by
  induction tokens with
  | nil => exact .nil
  | cons first more ih => exact .cons ih

/-- As much is taken from tokens that stand elsewhere. -/
theorem Alongside.eq_map {k : Nat} {tokens rest rest' : List Lexeme}
    (h : Alongside tokens (tokens.map (Lexeme.shift k)) rest rest') :
    rest' = rest.map (Lexeme.shift k) ∧ rest <:+ tokens := by
  induction tokens with
  | nil =>
    cases h
    exact ⟨rfl, List.suffix_rfl⟩
  | cons first more ih =>
    generalize hshifted : (first :: more).map (Lexeme.shift k) = shifted at h
    cases h with
    | here => exact ⟨hshifted.symm, List.suffix_rfl⟩
    | past hsep hmore =>
      cases hshifted
      obtain ⟨heq, hsuffix⟩ := ih hmore
      exact ⟨heq, hsuffix.trans (List.suffix_cons _ _)⟩

namespace Parser

variable {table : OperatorTable} {tokens rest later : List Lexeme} {size size' k : Nat}

/-- What becomes of the reading of a statement: a statement or an error, and the tokens from which
reading goes on. -/
def conclude (size : Nat) {start : List Lexeme} :
    Reading start Statement → Except (Located ParseError) (Located Statement) × List Lexeme
  | .accepted found rest _ => (.ok ⟨found, spanUpTo start rest⟩, rest.drop 1)
  | .rejected error rest _ => (.error ⟨error, nextSpan size rest⟩, resynchronize rest)

/-- The next statement and the tokens behind it. -/
def nextStatement? (table : OperatorTable) (size : Nat) (tokens : List Lexeme) :
    Option (Except (Located ParseError) (Located Statement) × List Lexeme) :=
  (next? table size tokens).map fun progress => (progress.statement, progress.rest)

/-- Where no token is left apart from semicolons there is no statement. -/
theorem nextStatement?_eq_none (h : fromNext tokens = []) :
    nextStatement? table size tokens = none := by
  unfold fromNext at h
  rw [nextStatement?, next?, dif_pos h]
  rfl

/-- Otherwise a statement is read, or rejected. -/
theorem nextStatement?_eq_some (h : fromNext tokens ≠ []) :
    nextStatement? table size tokens = some (conclude size (whole table (fromNext tokens))) := by
  unfold fromNext at h ⊢
  rw [nextStatement?, next?, dif_neg h]
  split
  · rename_i hwhole
    exact congrArg (fun reading => some (conclude size reading)) hwhole.symm
  · rename_i hwhole
    exact congrArg (fun reading => some (conclude size reading)) hwhole.symm

/-- Semicolons in front of a statement do not matter. -/
theorem nextStatement?_congr {tokens' : List Lexeme} (h : fromNext tokens = fromNext tokens') :
    nextStatement? table size tokens = nextStatement? table size tokens' := by
  by_cases hne : fromNext tokens' = []
  · rw [nextStatement?_eq_none hne, nextStatement?_eq_none (h.trans hne)]
  · rw [nextStatement?_eq_some hne, nextStatement?_eq_some (h ▸ hne), h]

/-- What follows a statement is a shorter end piece. -/
theorem nextStatement?_rest {found : Except (Located ParseError) (Located Statement)}
    (h : nextStatement? table size tokens = some (found, rest)) :
    rest <:+ tokens ∧ rest.length < tokens.length ∧ ∀ statement, found = .ok statement →
      ∃ left, AcceptsStatement table (fromNext tokens) statement.value left := by
  obtain ⟨progress, hnext, heq⟩ := Option.map_eq_some_iff.1 h
  cases heq
  obtain ⟨hsuffix, haccepts⟩ := next?_eq_some hnext
  exact ⟨hsuffix, progress.shorter, haccepts⟩

/-- The next statement begins with no semicolon. -/
theorem endsStatement_of_fromNext {first : Lexeme} {more : List Lexeme}
    (h : fromNext tokens = first :: more) : first.token.endsStatement = false := by
  have hhead := List.head?_dropWhile_not (·.token.endsStatement) tokens
  rw [show tokens.dropWhile (·.token.endsStatement) = first :: more from h] at hhead
  simpa using hhead

/-- A statement that has been read is followed by what ends it. -/
theorem endsStatement_of_accepts {found : Statement} (h : (whole table tokens).Accepts found rest) :
    ∀ next ∈ rest.head?, next.token.endsStatement := by
  rw [whole, Reading.accepts_andThen] at h
  obtain ⟨found', mid, _, h⟩ := h
  split at h
  · obtain ⟨-, rfl⟩ := Reading.accepts_done.1 h
    rintro _ ⟨⟩
  · rename_i first more _
    split at h
    · rename_i hends
      obtain ⟨-, rfl⟩ := Reading.accepts_done.1 h
      rintro _ ⟨⟩
      exact hends
    · exact (Reading.accepts_unexpected.1 h).elim

/-- Skipping stops at the last semicolon at the latest. -/
theorem resynchronize_append (h : Ended tokens) (hne : tokens ≠ []) (later : List Lexeme) :
    resynchronize (tokens ++ later) = resynchronize tokens ++ later := by
  induction tokens with
  | nil => exact (hne rfl).elim
  | cons first more ih =>
    rw [List.cons_append, resynchronize, resynchronize]
    split
    · rfl
    · split
      · rfl
      · rename_i hends
        exact ih (h.suffix (List.suffix_cons _ _)) (h.tail_ne_nil (Bool.eq_false_iff.2 hends))

/-- A statement covers the same part of the source whatever follows what ends it. -/
theorem spanUpTo_append (hne : tokens ≠ []) (rest later : List Lexeme) :
    spanUpTo (tokens ++ later) (rest ++ later) = spanUpTo tokens rest := by
  obtain ⟨first, more, rfl⟩ := List.exists_cons_of_ne_nil hne
  have hlength : (first :: more ++ later).length - (rest ++ later).length =
      (first :: more).length - rest.length := by
    rw [List.length_append, List.length_append]
    omega
  have htake : (first :: more ++ later).take
      ((first :: more ++ later).length - (rest ++ later).length) =
      (first :: more).take ((first :: more).length - rest.length) := by
    rw [hlength, List.take_append_of_le_length (Nat.sub_le _ _)]
  rw [List.cons_append] at htake
  simp only [spanUpTo, List.cons_append, htake]
  cases ((first :: more).take ((first :: more).length - rest.length)).getLast? with
  | none => rfl
  | some last => rfl

/-- Where a token is left, later tokens do not change where the next one stands. -/
theorem nextSpan_append (hne : rest ≠ []) (later : List Lexeme) :
    nextSpan size (rest ++ later) = nextSpan size' rest := by
  obtain ⟨first, more, rfl⟩ := List.exists_cons_of_ne_nil hne
  rfl

/-- The next statement is found in front of what follows. -/
theorem fromNext_append (hne : fromNext tokens ≠ []) (later : List Lexeme) :
    fromNext (tokens ++ later) = fromNext tokens ++ later := by
  unfold fromNext at hne ⊢
  rw [List.dropWhile_append, if_neg]
  rwa [List.isEmpty_iff]

/-- What follows behind the last semicolon does not matter for the next statement. -/
theorem nextStatement?_append (hsemicolon : table.lookup ';' = none) (hended : Ended tokens)
    (hne : fromNext tokens ≠ []) (size size' : Nat) (later : List Lexeme) :
    nextStatement? table size (tokens ++ later) =
      (nextStatement? table size' tokens).map fun (found, rest) => (found, rest ++ later) := by
  have hstart : fromNext (tokens ++ later) = fromNext tokens ++ later := fromNext_append hne later
  have hfromNext : Ended (fromNext tokens) := hended.suffix (List.dropWhile_suffix _)
  rw [nextStatement?_eq_some (by rw [hstart]; exact List.append_ne_nil_of_left_ne_nil hne _),
    nextStatement?_eq_some hne, hstart, Option.map_some, Option.some.injEq]
  obtain ⟨⟨token, span⟩, more, hcons⟩ := List.exists_cons_of_ne_nil hne
  have hfirst := endsStatement_of_fromNext hcons
  rw [hcons] at hfromNext ⊢
  have hmore := hfromNext.suffix (List.suffix_cons _ more)
  have hmoreNe := hfromNext.tail_ne_nil hfirst
  -- Wherever the readings stop, what follows is still there.
  have hreadings : ∃ rest, Ended rest ∧ rest ≠ [] ∧ Reading.StopAt
      (whole table (⟨token, span⟩ :: more ++ later)) (whole table (⟨token, span⟩ :: more))
      (rest ++ later) rest := by
    rcases coincides_whole hsemicolon (hmore.alike_append hmoreNe later) with hcoincides | hcoincides
    · obtain ⟨rest, rest', halongside, hstop⟩ := hcoincides.stopAt
      obtain ⟨rfl, hrest, hsuffix⟩ := halongside.eq_append hfromNext (List.cons_ne_nil _ _)
      exact ⟨rest', hfromNext.suffix hsuffix, hrest, hstop⟩
    · obtain ⟨rest, rest', halongside, hstop⟩ := hcoincides.stopAt
      obtain ⟨rfl, hrest, hsuffix⟩ := halongside.eq_append hmore hmoreNe
      exact ⟨rest', hmore.suffix hsuffix, hrest, hstop⟩
  obtain ⟨rest, hrest, hrestNe, hstop⟩ := hreadings
  rcases hstop with ⟨found, _, _, hwhole, hwhole'⟩ | ⟨error, _, _, hwhole, hwhole'⟩
  · rw [hwhole, hwhole']
    simp only [conclude]
    rw [spanUpTo_append (List.cons_ne_nil _ _), List.drop_append_of_le_length]
    exact List.length_pos_iff.2 hrestNe
  · rw [hwhole, hwhole']
    simp only [conclude]
    rw [resynchronize_append hrest hrestNe, nextSpan_append hrestNe]

/-- Places do not matter to where the next statement may begin. -/
theorem map_shift_resynchronize (k : Nat) (tokens : List Lexeme) :
    resynchronize (tokens.map (Lexeme.shift k)) = (resynchronize tokens).map (Lexeme.shift k) := by
  induction tokens with
  | nil => rfl
  | cons first more ih =>
    rw [List.map_cons, resynchronize, resynchronize, show (first.shift k).token = first.token from rfl]
    split
    · rfl
    · split
      · rfl
      · exact ih

/-- Places do not matter to where the next statement begins. -/
theorem fromNext_map_shift (k : Nat) (tokens : List Lexeme) :
    fromNext (tokens.map (Lexeme.shift k)) = (fromNext tokens).map (Lexeme.shift k) := by
  unfold fromNext
  rw [List.dropWhile_map]
  rfl

/-- If all tokens are shifted, the place of the next one is. -/
theorem nextSpan_map_shift (k : Nat) (tokens : List Lexeme) :
    nextSpan (k + size) (tokens.map (Lexeme.shift k)) = (nextSpan size tokens).shift k := by
  cases tokens with
  | nil => rfl
  | cons first more => rfl

/-- A statement that takes a token stands where its tokens do. -/
theorem spanUpTo_map_shift (k : Nat) (hlt : rest.length < tokens.length) :
    spanUpTo (tokens.map (Lexeme.shift k)) (rest.map (Lexeme.shift k)) =
      (spanUpTo tokens rest).shift k := by
  cases tokens with
  | nil => exact (Nat.not_lt_zero _ hlt).elim
  | cons first more =>
    have hne : (first :: more).take ((first :: more).length - rest.length) ≠ [] := by
      rw [← List.length_pos_iff, List.length_take]
      omega
    simp only [spanUpTo, List.map_cons, List.length_cons, List.length_map]
    rw [← List.map_cons, ← List.map_take, List.getLast?_map]
    rw [List.length_cons] at hne
    rw [List.getLast?_eq_some_getLast hne]
    rfl

/-- What is shifted is the place only. -/
def shiftFound (k : Nat) :
    Except (Located ParseError) (Located Statement) → Except (Located ParseError) (Located Statement)
  | .ok found => .ok (found.shift k)
  | .error error => .error (error.shift k)

/-- What stands in front does not matter for the next statement, apart from its place. -/
theorem nextStatement?_map_shift (hsemicolon : table.lookup ';' = none) (k size : Nat)
    (tokens : List Lexeme) :
    nextStatement? table (k + size) (tokens.map (Lexeme.shift k)) =
      (nextStatement? table size tokens).map fun (found, rest) =>
        (shiftFound k found, rest.map (Lexeme.shift k)) := by
  have hstart := fromNext_map_shift k tokens
  by_cases hne : fromNext tokens = []
  · rw [nextStatement?_eq_none hne, nextStatement?_eq_none (by rw [hstart, hne]; rfl)]
    rfl
  · rw [nextStatement?_eq_some hne, nextStatement?_eq_some (by simpa [hstart] using hne), hstart,
      Option.map_some, Option.some.injEq]
    obtain ⟨⟨token, span⟩, more, hcons⟩ := List.exists_cons_of_ne_nil hne
    have hfirst := endsStatement_of_fromNext hcons
    rw [hcons]
    have hreadings : ∃ rest, rest <:+ ⟨token, span⟩ :: more ∧ Reading.StopAt
        (whole table (⟨token, span⟩ :: more))
        (whole table ((⟨token, span⟩ :: more).map (Lexeme.shift k)))
        rest (rest.map (Lexeme.shift k)) := by
      rcases coincides_whole hsemicolon (alike_map_shift k more) with hcoincides | hcoincides
      · obtain ⟨rest, rest', halongside, hstop⟩ := hcoincides.stopAt
        rw [show Lexeme.mk token _ :: more.map (Lexeme.shift k) =
          (⟨token, span⟩ :: more).map (Lexeme.shift k) from rfl] at halongside
        obtain ⟨rfl, hsuffix⟩ := halongside.eq_map
        exact ⟨rest, hsuffix, hstop⟩
      · obtain ⟨rest, rest', halongside, hstop⟩ := hcoincides.stopAt
        obtain ⟨rfl, hsuffix⟩ := halongside.eq_map
        exact ⟨rest, hsuffix.trans (List.suffix_cons _ _), hstop⟩
    obtain ⟨rest, hsuffix, hstop⟩ := hreadings
    rcases hstop with ⟨found, suffix, _, hwhole, hwhole'⟩ | ⟨error, _, _, hwhole, hwhole'⟩
    · rw [hwhole, hwhole']
      -- A statement that took no token would be followed by one that ends no statement.
      have hlt : rest.length < (⟨token, span⟩ :: more : List Lexeme).length := by
        refine Nat.lt_of_le_of_ne hsuffix.length_le fun heq => ?_
        obtain rfl := hsuffix.eq_of_length heq
        have hends := endsStatement_of_accepts ⟨suffix, hwhole⟩ _ rfl
        rw [hfirst] at hends
        cases hends
      simp only [conclude, shiftFound]
      rw [spanUpTo_map_shift k hlt, List.map_drop]
      rfl
    · rw [hwhole, hwhole']
      simp only [conclude, shiftFound]
      rw [map_shift_resynchronize, nextSpan_map_shift]
      rfl

end Parser

end Kaleidoscope
