import Kaleidoscope.Proofs.Parser.Continuation
import Mathlib.Data.List.Infix
import Mathlib.Data.List.TakeWhile

/-!
# The segments of a source

The statements of a source take up segments of its tokens, one after the other, with nothing but
semicolons between them. A semicolon ends a segment, and a word that opens a definition begins one.
This holds of accepted statements and of rejected ones: where a statement is rejected, reading goes
on at the next point where a statement may begin.
-/

namespace Kaleidoscope

/-- None of the tokens separates statements. -/
def Unbroken (tokens : List Lexeme) : Prop := ∀ lexeme ∈ tokens, lexeme.token.separates = false

/-- None of the tokens ends a statement. -/
theorem Unbroken.endsStatement {tokens : List Lexeme} (h : Unbroken tokens) :
    ∀ lexeme ∈ tokens, lexeme.token.endsStatement = false :=
  fun lexeme hmem => (Bool.or_eq_false_iff.1 (h lexeme hmem)).1

/-- None of the tokens opens a definition. -/
theorem Unbroken.opensDefinition {tokens : List Lexeme} (h : Unbroken tokens) :
    ∀ lexeme ∈ tokens, lexeme.token.opensDefinition = false :=
  fun lexeme hmem => (Bool.or_eq_false_iff.1 (h lexeme hmem)).2

/-- A list is like itself. -/
theorem Alike.refl (tokens : List Lexeme) : Alike tokens tokens := by
  induction tokens with
  | nil => exact .nil
  | cons first rest ih => exact .cons ih

/-- What has been taken separates no statements. -/
theorem Alongside.exists_taken {tokens tokens' rest rest' : List Lexeme}
    (h : Alongside tokens tokens' rest rest') :
    ∃ taken, tokens = taken ++ rest ∧ Unbroken taken := by
  induction h with
  | here => exact ⟨[], rfl, nofun⟩
  | past hsep _ ih =>
    obtain ⟨taken, rfl, htaken⟩ := ih
    exact ⟨_ :: taken, rfl, List.forall_mem_cons.2 ⟨hsep, htaken⟩⟩

namespace Parser

variable {table : OperatorTable} {tokens rest skipped : List Lexeme} {size : Nat}

/-- What becomes of a statement. It stands at a place of the source either way. -/
abbrev Verdict := Except (Located ParseError) (Located Statement)

/-- The tokens up to the first point where a statement may begin: behind a semicolon, before a word
that opens a definition, or at the end. What follows that point is given last. -/
inductive Skips : List Lexeme → List Lexeme → Prop where
  | behindSemicolon {before : List Lexeme} {semicolon : Lexeme} {rest : List Lexeme} :
      Unbroken before → semicolon.token.endsStatement → Skips (before ++ [semicolon]) rest
  | beforeDefinition {before : List Lexeme} {first : Lexeme} {rest : List Lexeme} :
      Unbroken before → first.token.opensDefinition → Skips before (first :: rest)
  | atEnd {before : List Lexeme} : Unbroken before → Skips before []

/-- Nothing but a semicolon is skipped where one comes next. -/
theorem skips_semicolon {semicolon : Lexeme} (h : semicolon.token.endsStatement)
    (rest : List Lexeme) : Skips [semicolon] rest :=
  show Skips ([] ++ [semicolon]) rest from .behindSemicolon nofun h

/-- A token that separates no statements is skipped, too. -/
theorem Skips.cons {first : Lexeme} (hfirst : first.token.separates = false)
    (h : Skips skipped rest) : Skips (first :: skipped) rest := by
  cases h with
  | behindSemicolon hbefore hsemicolon =>
    rw [← List.cons_append]
    exact .behindSemicolon (List.forall_mem_cons.2 ⟨hfirst, hbefore⟩) hsemicolon
  | beforeDefinition hbefore hopens =>
    exact .beforeDefinition (List.forall_mem_cons.2 ⟨hfirst, hbefore⟩) hopens
  | atEnd hbefore => exact .atEnd (List.forall_mem_cons.2 ⟨hfirst, hbefore⟩)

/-- Resynchronizing skips to the first such point. -/
theorem exists_skips (tokens : List Lexeme) :
    ∃ skipped, tokens = skipped ++ resynchronize tokens ∧ Skips skipped (resynchronize tokens) := by
  induction tokens with
  | nil => exact ⟨[], rfl, .atEnd nofun⟩
  | cons first rest ih =>
    rw [resynchronize]
    split
    · rename_i hopens
      exact ⟨[], rfl, .beforeDefinition nofun hopens⟩
    · rename_i hopens
      split
      · rename_i hends
        exact ⟨[first], rfl, skips_semicolon hends rest⟩
      · rename_i hends
        have hsep : first.token.separates = false := by
          rw [Token.separates, Bool.eq_false_iff.2 hopens, Bool.eq_false_iff.2 hends]
          rfl
        obtain ⟨skipped, heq, hskips⟩ := ih
        exact ⟨first :: skipped, congrArg (first :: ·) heq, hskips.cons hsep⟩

/-- No definition is skipped. -/
theorem Skips.opensDefinition (h : Skips skipped rest) :
    ∀ lexeme ∈ skipped, lexeme.token.opensDefinition = false := by
  cases h with
  | behindSemicolon hbefore hsemicolon =>
    rw [List.forall_mem_append]
    refine ⟨hbefore.opensDefinition, List.forall_mem_singleton.2 ?_⟩
    rw [of_decide_eq_true hsemicolon]
    rfl
  | beforeDefinition hbefore => exact hbefore.opensDefinition
  | atEnd hbefore => exact hbefore.opensDefinition

/-- Only the last token that is skipped may be a semicolon. -/
theorem Skips.endsStatement (h : Skips skipped rest) :
    ∀ lexeme ∈ skipped.dropLast, lexeme.token.endsStatement = false := by
  cases h with
  | behindSemicolon hbefore hsemicolon =>
    rw [List.dropLast_concat]
    exact hbefore.endsStatement
  | beforeDefinition hbefore =>
    exact fun lexeme hmem => hbefore.endsStatement lexeme (List.mem_of_mem_dropLast hmem)
  | atEnd hbefore =>
    exact fun lexeme hmem => hbefore.endsStatement lexeme (List.mem_of_mem_dropLast hmem)

/-- The tokens that a statement takes up, and what has become of it. -/
structure Segment where
  tokens : List Lexeme
  verdict : Verdict

/-- Where a segment ends in front of the tokens given last. An accepted statement ends with its
semicolon or at the end of the source. A rejected one is placed at the token that does not fit, and
ends at the first point from that token on where a statement may begin. -/
inductive Segment.Ending (size : Nat) : Verdict → List Lexeme → List Lexeme → Prop where
  | semicolon {found : Located Statement} {body : List Lexeme} {semicolon : Lexeme}
      {rest : List Lexeme} : semicolon.token.endsStatement →
      Segment.Ending size (.ok found) (body ++ [semicolon]) rest
  | endOfSource {found : Located Statement} {body : List Lexeme} : Segment.Ending size (.ok found) body []
  | rejected {error : Located ParseError} {taken skipped rest : List Lexeme} :
      error.span = nextSpan size (skipped ++ rest) → Skips skipped rest →
      Segment.Ending size (.error error) (taken ++ skipped) rest

/-- A segment in front of other tokens. A definition opens at its first token only, and only its
last token may be a semicolon, which is not the only one. -/
structure Segment.Precedes (size : Nat) (rest : List Lexeme) (segment : Segment) : Prop where
  ne_nil : segment.tokens ≠ []
  first : ∀ first ∈ segment.tokens.head?, first.token.endsStatement = false
  opens : ∀ lexeme ∈ segment.tokens.tail, lexeme.token.opensDefinition = false
  ends : ∀ lexeme ∈ segment.tokens.dropLast, lexeme.token.endsStatement = false
  ending : Segment.Ending size segment.verdict segment.tokens rest

/-- Segments cover the tokens, apart from semicolons between them. -/
inductive Tiles (size : Nat) : List Lexeme → List Segment → Prop where
  | finished {tokens : List Lexeme} : (∀ lexeme ∈ tokens, lexeme.token.endsStatement) →
      Tiles size tokens []
  | next {gap rest : List Lexeme} {segment : Segment} {segments : List Segment} :
      (∀ lexeme ∈ gap, lexeme.token.endsStatement) → segment.Precedes size rest →
      Tiles size rest segments → Tiles size (gap ++ segment.tokens ++ rest) (segment :: segments)

/-- The first token, if it opens a definition. -/
def Segment.opening? (segment : Segment) : Option Lexeme :=
  segment.tokens.head?.filter (·.token.opensDefinition)

/-- A segment has no other token that opens a definition. -/
theorem Segment.Precedes.filter_eq {segment : Segment} (h : segment.Precedes size rest) :
    segment.tokens.filter (·.token.opensDefinition) = segment.opening?.toList := by
  obtain ⟨first, more, heq⟩ := List.exists_cons_of_ne_nil h.ne_nil
  have hmore : more.filter (·.token.opensDefinition) = [] :=
    List.filter_eq_nil_iff.2 fun lexeme hmem => by
      rw [h.opens lexeme (heq ▸ hmem)]
      exact Bool.false_ne_true
  rw [Segment.opening?, heq, List.head?_cons, List.filter_cons, hmore, Option.filter_some]
  split
  · rfl
  · rfl

/-- The tokens that open definitions are the first tokens of segments, each of one. -/
theorem Tiles.filter_eq {segments : List Segment} (h : Tiles size tokens segments) :
    tokens.filter (·.token.opensDefinition) = segments.filterMap Segment.opening? := by
  have hnone {gap : List Lexeme} (hgap : ∀ lexeme ∈ gap, lexeme.token.endsStatement) :
      gap.filter (·.token.opensDefinition) = [] :=
    List.filter_eq_nil_iff.2 fun lexeme hmem => by
      rw [of_decide_eq_true (hgap lexeme hmem)]
      exact Bool.false_ne_true
  induction h with
  | finished hends => exact hnone hends
  | @next gap rest segment segments hgap hsegment _ ih =>
    rw [List.filter_append, List.filter_append, hnone hgap, hsegment.filter_eq, ih,
      List.filterMap_cons]
    cases segment.opening? <;> rfl

/-- There are no more segments than tokens. -/
theorem Tiles.length_le {segments : List Segment} (h : Tiles size tokens segments) :
    segments.length ≤ tokens.length := by
  induction h with
  | finished => exact Nat.zero_le _
  | next _ hsegment _ ih =>
    have := List.length_pos_iff.2 hsegment.ne_nil
    simp only [List.length_cons, List.length_append]
    omega

/-- Tokens that have been taken behind the first one, and those that are skipped then, are a
segment. -/
theorem precedes_of_skips {verdict : Verdict} {taken : List Lexeme}
    (hne : taken ++ skipped ≠ [])
    (hfirst : ∀ first ∈ (taken ++ skipped).head?, first.token.endsStatement = false)
    (htaken : Unbroken taken.tail) (hskips : Skips skipped rest)
    (hends : Segment.Ending size verdict (taken ++ skipped) rest) :
    Segment.Precedes size rest ⟨taken ++ skipped, verdict⟩ := by
  refine ⟨hne, hfirst, ?opens, ?ends, hends⟩
  case opens =>
    cases taken with
    | nil => exact fun lexeme hmem => hskips.opensDefinition lexeme (List.mem_of_mem_tail hmem)
    | cons first more =>
      exact List.forall_mem_append.2 ⟨htaken.opensDefinition, hskips.opensDefinition⟩
  case ends =>
    have htakenEnds : ∀ lexeme ∈ taken, lexeme.token.endsStatement = false := by
      cases taken with
      | nil => exact nofun
      | cons first more =>
        exact List.forall_mem_cons.2 ⟨hfirst first rfl, htaken.endsStatement⟩
    by_cases hskipped : skipped = []
    · subst hskipped
      rw [List.append_nil]
      exact fun lexeme hmem => htakenEnds lexeme (List.mem_of_mem_dropLast hmem)
    · rw [List.dropLast_append_of_ne_nil hskipped]
      exact List.forall_mem_append.2 ⟨htakenEnds, hskips.endsStatement⟩

/-- Behind the first token of a statement, nothing that separates statements is taken. -/
theorem exists_taken_whole (hsemicolon : table.lookup ';' = none) (first : Lexeme)
    (more : List Lexeme) : ∃ taken rest, first :: more = taken ++ rest ∧ Unbroken taken.tail ∧
      Reading.StopAt (whole table (first :: more)) (whole table (first :: more)) rest rest := by
  obtain ⟨token, span⟩ := first
  have hself {rest rest' : List Lexeme} (hstop : Reading.StopAt (whole table (⟨token, span⟩ :: more))
      (whole table (⟨token, span⟩ :: more)) rest rest') : rest = rest' := by
    rcases hstop with ⟨_, _, _, h, h'⟩ | ⟨_, _, _, h, h'⟩
    · cases h.symm.trans h'
      rfl
    · cases h.symm.trans h'
      rfl
  rcases @coincides_whole table hsemicolon token span span more more (Alike.refl more) with
    hcoincides | hcoincides
  · obtain ⟨rest, rest', halongside, hstop⟩ := hcoincides.stopAt
    obtain rfl := hself hstop
    obtain ⟨taken, heq, htaken⟩ := halongside.exists_taken
    exact ⟨taken, rest, heq, fun lexeme hmem => htaken lexeme (List.mem_of_mem_tail hmem), hstop⟩
  · obtain ⟨rest, rest', halongside, hstop⟩ := hcoincides.stopAt
    obtain rfl := hself hstop
    obtain ⟨taken, heq, htaken⟩ := halongside.exists_taken
    exact ⟨_ :: taken, rest, congrArg _ heq, htaken, hstop⟩

/-- A statement that begins with no semicolon takes up a segment. -/
theorem exists_segment_whole (hsemicolon : table.lookup ';' = none) {first : Lexeme}
    {more : List Lexeme} (hfirst : first.token.endsStatement = false) {verdict : Verdict}
    (h : conclude size (whole table (first :: more)) = (verdict, rest)) :
    ∃ segment, first :: more = segment ++ rest ∧ Segment.Precedes size rest ⟨segment, verdict⟩ := by
  have hhead {segment rest : List Lexeme} (hne : segment ≠ [])
      (heq : first :: more = segment ++ rest) :
      ∀ lexeme ∈ segment.head?, lexeme.token.endsStatement = false := by
    obtain ⟨first', more', rfl⟩ := List.exists_cons_of_ne_nil hne
    cases heq
    rintro _ ⟨⟩
    exact hfirst
  obtain ⟨taken, left, heq, htaken, ⟨found, suffix, -, hwhole, -⟩ | ⟨error, suffix, -, hwhole, -⟩⟩ :=
    exists_taken_whole hsemicolon first more
  · have hsplit : first :: more = taken ++ left.take 1 ++ left.drop 1 := by
      rw [List.append_assoc, List.take_append_drop]
      exact heq
    have hne : taken ++ left.take 1 ≠ [] := by
      intro hnil
      obtain ⟨rfl, hleft⟩ := List.append_eq_nil_iff.1 hnil
      rcases List.take_eq_nil_iff.1 hleft with h | rfl
      · cases h
      · cases heq
    rw [hwhole] at h
    cases h
    refine ⟨taken ++ left.take 1, hsplit, ?_⟩
    cases left with
    | nil => exact precedes_of_skips hne (hhead hne hsplit) htaken (.atEnd nofun) .endOfSource
    | cons next later =>
      have hends : next.token.endsStatement := endsStatement_of_accepts ⟨suffix, hwhole⟩ next rfl
      exact precedes_of_skips hne (hhead hne hsplit) htaken (skips_semicolon hends later)
        (.semicolon hends)
  · have hshorter := length_resynchronize_rejected (List.cons_ne_nil first more) hwhole
    rw [hwhole] at h
    cases h
    obtain ⟨skipped, hleft, hskips⟩ := exists_skips left
    have hsplit : first :: more = taken ++ skipped ++ resynchronize left := by
      rw [List.append_assoc, ← hleft]
      exact heq
    -- A rejection never leaves the tokens where the statement began, so something is taken or
    -- skipped.
    have hne : taken ++ skipped ≠ [] := by
      intro hnil
      rw [hsplit, hnil] at hshorter
      exact Nat.lt_irrefl _ hshorter
    refine ⟨taken ++ skipped, hsplit, ?_⟩
    refine precedes_of_skips hne (hhead hne hsplit) htaken hskips (.rejected ?_ hskips)
    rw [← hleft]

/-- The next statement takes up a segment. -/
theorem exists_segment (hsemicolon : table.lookup ';' = none) {verdict : Verdict}
    (h : nextStatement? table size tokens = some (verdict, rest)) :
    ∃ gap segment, tokens = gap ++ segment ++ rest ∧
      (∀ lexeme ∈ gap, lexeme.token.endsStatement) ∧
      Segment.Precedes size rest ⟨segment, verdict⟩ := by
  have hne : fromNext tokens ≠ [] := fun hnone => by
    rw [nextStatement?_eq_none hnone] at h
    cases h
  rw [nextStatement?_eq_some hne, Option.some.injEq] at h
  obtain ⟨first, more, hcons⟩ := List.exists_cons_of_ne_nil hne
  rw [hcons] at h
  obtain ⟨segment, heq, hprecedes⟩ :=
    exists_segment_whole hsemicolon (endsStatement_of_fromNext hcons) h
  refine ⟨tokens.takeWhile (·.token.endsStatement), segment, ?_,
    fun lexeme hmem => List.all_eq_true.1 List.all_takeWhile lexeme hmem, hprecedes⟩
  rw [List.append_assoc, ← heq, ← hcons]
  exact List.takeWhile_append_dropWhile.symm

/-- Where no statement is left there are semicolons at most. -/
theorem endsStatement_of_fromNext_eq_nil (h : fromNext tokens = []) :
    ∀ lexeme ∈ tokens, lexeme.token.endsStatement :=
  List.dropWhile_eq_nil_iff.1 h

/-- What becomes of the statements of a source of `size` bytes, which are read one after the other
until none is left. -/
def verdicts (table : OperatorTable) (size : Nat) (tokens : List Lexeme) : List Verdict :=
  match next? table size tokens with
  | none => []
  | some ⟨verdict, rest, _⟩ => verdict :: verdicts table size rest
termination_by tokens.length

/-- The first statement is judged, and then those behind it. -/
theorem verdicts_eq (table : OperatorTable) (size : Nat) (tokens : List Lexeme) :
    verdicts table size tokens =
      match nextStatement? table size tokens with
      | none => []
      | some (verdict, rest) => verdict :: verdicts table size rest := by
  rw [verdicts, nextStatement?]
  cases next? table size tokens with
  | none => rfl
  | some progress => rfl

/-- The statements of a source take up segments that cover it. -/
theorem exists_tiles (hsemicolon : table.lookup ';' = none) (size : Nat) (tokens : List Lexeme) :
    ∃ segments, Tiles size tokens segments ∧
      segments.map Segment.verdict = verdicts table size tokens := by
  induction hlength : tokens.length using Nat.strongRecOn generalizing tokens with
  | ind length ih =>
    rw [verdicts_eq]
    cases hnext : nextStatement? table size tokens with
    | none =>
      refine ⟨[], .finished (endsStatement_of_fromNext_eq_nil ?_), rfl⟩
      by_contra hne
      rw [nextStatement?_eq_some hne] at hnext
      cases hnext
    | some result =>
      obtain ⟨verdict, rest⟩ := result
      have hshorter := (nextStatement?_rest hnext).2.1
      obtain ⟨gap, segment, rfl, hgap, hsegment⟩ := exists_segment hsemicolon hnext
      obtain ⟨segments, htiles, hverdicts⟩ := ih rest.length (hlength ▸ hshorter) rest rfl
      exact ⟨⟨segment, verdict⟩ :: segments, .next hgap hsegment htiles, congrArg _ hverdicts⟩

end Parser

end Kaleidoscope
