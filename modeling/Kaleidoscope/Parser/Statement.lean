import Kaleidoscope.Parser.Expression
import Kaleidoscope.Parser.Prototype

/-!
# Reading statements

A program is a list of statements. A semicolon ends a statement and nothing else, and a definition
or a declaration begins with a word that occurs nowhere else. So after a rejected statement reading
goes on behind the next semicolon, or before the next such word if that comes first: a fault in
one statement loses no definition behind it.
-/

namespace Kaleidoscope.Parser

open Reading (done past unexpected)

/-- A statement, without what ends it. -/
def statement (table : OperatorTable) (tokens : List Lexeme) : Reading tokens Statement :=
  match tokens with
  | ⟨.keyword .defKeyword, span⟩ :: more => past ⟨.keyword .defKeyword, span⟩ <|
      (prototype more).andThen fun signature rest _ =>
      (expression table rest).andThen fun body rest _ => done (.definition ⟨signature, body⟩) rest
  | ⟨.keyword .externKeyword, span⟩ :: more =>
    past ⟨.keyword .externKeyword, span⟩ ((prototype more).map .declaration)
  | tokens => (expression table tokens).map .evaluation

/-- A statement that ends where the next token or the end of the input says so. -/
def whole (table : OperatorTable) (tokens : List Lexeme) : Reading tokens Statement :=
  (statement table tokens).andThen fun found rest _ =>
  match rest with
  | [] => done found []
  | first :: more =>
    if first.token.endsStatement then done found (first :: more)
    else unexpected .terminator (first :: more)

/-- Skip to the next point where a statement may begin. -/
def resynchronize : List Lexeme → List Lexeme
  | [] => []
  | first :: rest =>
    if first.token.opensDefinition then first :: rest
    else if first.token.endsStatement then rest
    else resynchronize rest

/-- Skipping makes the list no longer. -/
theorem length_resynchronize_le (tokens : List Lexeme) :
    (resynchronize tokens).length ≤ tokens.length := by
  induction tokens with
  | nil => exact Nat.le_refl _
  | cons first rest ih =>
    unfold resynchronize
    repeat' split
    all_goals simp only [List.length_cons]; omega

/-- A token that does not open a definition is skipped. -/
theorem length_resynchronize_lt {first : Lexeme} {rest : List Lexeme}
    (h : first.token.opensDefinition = false) :
    (resynchronize (first :: rest)).length < (first :: rest).length := by
  have := length_resynchronize_le rest
  simp only [resynchronize, h, Bool.false_eq_true, if_false, List.length_cons]
  split <;> omega

/-- A rejection behind an accepted beginning leaves no more than the beginning did. -/
theorem rejected_andThen_past {α β : Type} {first : Lexeme} {more rest : List Lexeme}
    {reading : Reading more α} {error : ParseError} {suffix : rest <:+ first :: more}
    {next : α → (rest : List Lexeme) → rest.length ≤ (first :: more).length → Reading rest β}
    (h : (past first reading).andThen next = .rejected error rest suffix) :
    rest.length ≤ more.length := by
  cases reading with
  | accepted value left s =>
    simp only [past, Reading.within, Reading.andThen] at h
    split at h
    · cases h
    · rename_i e left' s' _
      simp only [Reading.rejected.injEq] at h
      exact h.2 ▸ Nat.le_trans s'.length_le s.length_le
  | rejected e left s =>
    simp only [past, Reading.within, Reading.andThen, Reading.rejected.injEq] at h
    exact h.2 ▸ s.length_le

/-- After a rejection, resynchronizing leaves less than there was before the statement. -/
theorem length_resynchronize_rejected {table : OperatorTable} {tokens rest : List Lexeme}
    {error : ParseError} {suffix : rest <:+ tokens} (nonempty : tokens ≠ [])
    (h : whole table tokens = .rejected error rest suffix) :
    (resynchronize rest).length < tokens.length := by
  obtain ⟨first, more, rfl⟩ := List.exists_cons_of_ne_nil nonempty
  have hle := length_resynchronize_le rest
  cases hopen : first.token.opensDefinition with
  | true =>
    suffices rest.length ≤ more.length by simp only [List.length_cons]; omega
    obtain ⟨token, span⟩ := first
    simp only [Token.opensDefinition, Bool.or_eq_true, decide_eq_true_eq] at hopen
    obtain rfl | rfl := hopen
    · exact rejected_andThen_past h
    · exact rejected_andThen_past h
  | false =>
    by_cases hrest : rest = first :: more
    · subst hrest; exact length_resynchronize_lt hopen
    · have := suffix.length_le
      have : rest.length ≠ (first :: more).length := fun heq => hrest (suffix.eq_of_length heq)
      omega

/-- The part of the source that the next token, or the end of the input, stands for. -/
def nextSpan (size : Nat) : List Lexeme → Span
  | [] => ⟨size, size⟩
  | first :: _ => first.span

/-- From the start of the first token of `tokens` to the end of the last one before `rest`. -/
def spanUpTo (tokens rest : List Lexeme) : Span :=
  match tokens, (tokens.take (tokens.length - rest.length)).getLast? with
  | first :: _, some last => ⟨first.span.start, last.span.stop⟩
  | _, _ => ⟨0, 0⟩

/-- The first statement of a program and what follows it. -/
structure Progress (tokens : List Lexeme) where
  statement : Except (Located ParseError) (Located Statement)
  rest : List Lexeme
  shorter : rest.length < tokens.length

/-- Read the next statement of a source of `size` bytes, passing over empty ones. A rejection is
placed at the token that does not fit. -/
def next? (table : OperatorTable) (size : Nat) (tokens : List Lexeme) : Option (Progress tokens) :=
  let start := tokens.dropWhile (·.token.endsStatement)
  have hstart : start.length ≤ tokens.length := (List.dropWhile_suffix _).length_le
  if nonempty : start = [] then none
  else
    have hpos : 0 < start.length := List.length_pos_iff.mpr nonempty
    match h : whole table start with
    | .accepted found rest suffix => some {
        statement := .ok ⟨found, spanUpTo start rest⟩
        rest := rest.drop 1
        shorter := by have := suffix.length_le; simp only [List.length_drop]; omega }
    | .rejected error rest _ => some {
        statement := .error ⟨error, nextSpan size rest⟩
        rest := resynchronize rest
        shorter := Nat.lt_of_lt_of_le (length_resynchronize_rejected nonempty h) hstart }

end Kaleidoscope.Parser
