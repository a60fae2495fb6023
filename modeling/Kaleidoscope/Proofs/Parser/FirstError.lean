import Kaleidoscope.Proofs.Parser.Viability
import Kaleidoscope.Proofs.Token.Words

/-!
# Statements are rejected at the first wrong token

A statement that is rejected while an expression is read is rejected at the first token that is
wrong. The tokens before it are the beginning of a statement that is accepted, and no statement that
is accepted begins with them and that token.
-/

namespace Kaleidoscope

open Source (size)

/-- Every token of a text can be spelled: its own characters do. -/
theorem spellable_of_mem {text : String} {lexeme : Lexeme} (h : lexeme ∈ Lexer.tokens text) :
    Spellable lexeme.token := by
  obtain ⟨c, rest, cs, hpiece⟩ := Lexer.exists_piece_of_mem_scan h
  have hscan := @Lexer.scan_piece_append c rest [] 0 List.nil_prefix
  rw [Lexer.scan_nil, List.append_nil, List.append_nil, hpiece] at hscan
  exact ⟨cs, congrArg (List.map Lexeme.token) hscan⟩

/-- Tokens that can be spelled can be spelled one after the other, each on a line of its own. -/
theorem exists_text_of_spellable {tokens : List Token} (h : ∀ token ∈ tokens, Spellable token) :
    ∃ text : String, (Lexer.tokens text).map Lexeme.token = tokens := by
  have hlines : ∃ text, (Lexer.scan 0 text).map Lexeme.token = tokens := by
    induction tokens with
    | nil => exact ⟨[], congrArg (List.map Lexeme.token) (Lexer.scan_nil 0)⟩
    | cons first later ih =>
      obtain ⟨hfirst, hlater⟩ := List.forall_mem_cons.1 h
      obtain ⟨line, hline⟩ := hfirst
      obtain ⟨lines, hlines⟩ := ih hlater
      refine ⟨line ++ '\n' :: lines, ?_⟩
      rw [Lexer.scan_append_newline, List.map_append, hline, List.map_map, List.singleton_append]
      exact congrArg _ hlines
  obtain ⟨text, htext⟩ := hlines
  exact ⟨String.ofList text, by rw [Lexer.tokens, String.toList_ofList, htext]⟩

namespace Parser

open Reader (Continues Viable continues_andThen continues_otherwise continues_told)

variable {table : OperatorTable} {n bytes : Nat} {tokens rest : List Lexeme} {written : List Token}
  {error : ParseError}

/-- What has been written of a statement is a statement if nothing but its end is missing. -/
theorem viable_terminated (n : Nat) (found : Statement) :
    Viable n (· = []) (· = []) (terminated found) := by
  have hstarts : Continues (· = []) (· = []) (terminated found) [] := by
    refine ⟨[], found, nofun, ?_⟩
    rintro tokens _ hspells rfl
    obtain rfl := spells_nil.1 hspells
    exact ⟨accepts_terminated.2 ⟨nofun, rfl, rfl⟩, fun _ => rfl⟩
  refine ⟨hstarts, fun _ hrejects hspells => ?_⟩
  obtain ⟨-, rfl, rfl⟩ := rejects_terminated.1 hrejects
  obtain rfl := hspells.unique (spells_nil.2 rfl)
  exact ⟨⟨_, rfl⟩, hstarts⟩

/-- An expression that is the end of a statement is rejected at the first wrong token, too. -/
theorem viable_body (htable : Delimited table) (n : Nat) (found : Expr → Statement) :
    Viable n (· = []) AtName
      (.andThen (expression table) fun body => terminated (found body)) := by
  refine (viableBelow htable n).expression.andThen (peeksBelow table n).expression (fun body => ?_)
    (.inl (strict_expression table))
  refine (viable_terminated n (found body)).mono (Nat.le_refl n) (fun _ => id) ?_
  rintro _ rfl
  exact AtKeyword.ends nofun

/-- An expression is to be read: the statement is neither a definition nor a declaration, or it is a
definition and its signature has been read. -/
def ExpectsExpression (tokens : List Lexeme) : Prop :=
  (∀ first ∈ tokens.head?, first.token.opensDefinition = false) ∨
    ∃ more p mid, Takes (.keyword .defKeyword) tokens more ∧ (prototype more).Accepts p mid

/-- What has been taken of a statement before an expression in it is rejected can be continued to a
statement. -/
theorem continues_whole (htable : Delimited table) (hexpects : ExpectsExpression tokens)
    (hrejects : (whole table tokens).Rejects error rest) (hspells : Spells tokens written rest) :
    (∃ expected, error = .unexpected expected (rest.head?.map Lexeme.token)) ∧
      Continues (· = []) AtName (whole table) written := by
  have hname {token : Token} (h : ∃ name, token = .identifier name) : wholeBehind table token = none := by
    obtain ⟨name, rfl⟩ := h
    rfl
  rw [whole_eq] at hrejects ⊢
  rcases hexpects with hother | ⟨more, p, mid, ⟨span, rfl⟩, hp⟩
  · have hnone : ∀ first ∈ tokens.head?, wholeBehind table first.token = none := by
      intro first hfirst
      have := hother first hfirst
      unfold wholeBehind
      split
      · rename_i heq
        rw [heq] at this
        cases this
      · rename_i heq
        rw [heq] at this
        cases this
      · rfl
    rw [Reader.choose_of_none hnone] at hrejects
    obtain ⟨hexpected, hcontinues⟩ :=
      (viable_body htable _ .evaluation).continues (Nat.lt_succ_self _) hrejects hspells
    refine ⟨hexpected, continues_otherwise hcontinues ?_ fun tokens h first hfirst =>
      hname (h.head first hfirst)⟩
    intro token htoken
    obtain ⟨later, rfl⟩ := List.head?_eq_some_iff.1 htoken
    obtain ⟨more, ⟨span, rfl⟩, -⟩ := spells_cons.1 hspells
    exact hnone _ rfl
  · rw [Reader.choose_cons_of_some rfl, Reading.rejects_past] at hrejects
    rcases Reader.rejects_andThen.1 hrejects with hrejects | ⟨p', mid', hp', hbody⟩
    · exact (hrejects.not_accepts p mid hp).elim
    · have hmore : rest <:+ more := hbody.suffix.trans hp'.suffix
      obtain ⟨taken, later, rfl, htaken, hlater⟩ := hspells.split (List.suffix_cons _ more) hmore
      obtain rfl : taken = [.keyword .defKeyword] :=
        htaken.unique (spells_of_append [⟨.keyword .defKeyword, span⟩] more)
      obtain ⟨signature, body, rfl, hsignature, hbodySpells⟩ := hlater.split hp'.suffix hbody.suffix
      obtain ⟨hexpected, hcontinues⟩ :=
        (viable_body htable _ fun body => .definition ⟨p', body⟩).any.continues (Nat.lt_succ_self _)
          hbody hbodySpells
      have hwhole := continues_andThen (g := fun p => .andThen (expression table) fun body =>
          terminated (.definition ⟨p, body⟩))
        (peeks_prototype _) (Nat.lt_succ_self _) hp' hsignature hbodySpells hcontinues (.inr fun _ => id)
      exact ⟨hexpected, continues_told rfl hwhole⟩

/-- What can be continued to a statement can be continued to the text of one. -/
theorem exists_completed (h : Continues (· = []) AtName (whole table) written)
    (hwritten : ∀ token ∈ written, Spellable token)
    (hends : ∀ token ∈ written.head?, token.endsStatement = false) :
    ∃ (completed : String) (continuation : List Token)
      (progress : Progress (Lexer.tokens completed)) (found : Located Statement),
      (Lexer.tokens completed).map Lexeme.token = written ++ continuation ∧
      next? table (size completed.toList) (Lexer.tokens completed) = some progress ∧
      progress.statement = .ok found ∧ progress.rest = [] := by
  obtain ⟨continuation, a, hspellable, haccepts⟩ := h
  obtain ⟨completed, hcompleted⟩ :=
    exists_text_of_spellable (List.forall_mem_append.2 ⟨hwritten, hspellable⟩)
  obtain ⟨ha, hbegins⟩ :=
    haccepts ⟨Lexer.tokens completed, (List.append_nil _).symm, hcompleted⟩ rfl
  have hstart : ∃ first more, Lexer.tokens completed = first :: more ∧
      first.token.endsStatement = false := by
    cases written with
    | nil =>
      obtain ⟨name, more, span, heq⟩ := hbegins rfl
      exact ⟨_, more, heq, rfl⟩
    | cons token later =>
      obtain ⟨first, more, heq, rfl, -⟩ := List.map_eq_cons_iff.1 hcompleted
      exact ⟨first, more, heq, hends _ rfl⟩
  obtain ⟨first, more, heq, hfirst⟩ := hstart
  have hfromNext : fromNext (Lexer.tokens completed) = Lexer.tokens completed := by
    rw [heq]
    exact fromNext_cons hfirst more
  obtain ⟨progress, hnext, hfound, hrest⟩ := @next?_of_accepts table _ _ (size completed.toList) a
    (by rw [hfromNext, heq]; exact List.cons_ne_nil _ _) (hfromNext.symm ▸ ha)
  exact ⟨completed, continuation, progress, _, hcompleted, hnext, hfound, hrest⟩

/-- A statement that is rejected while an expression is read is rejected at the first wrong token,
which the error reports. The tokens before it can be continued to a statement that is accepted. No
statement that begins with those tokens and that one is accepted, and if the statement ends too
early, none that ends there. -/
theorem rejected_at_first_wrong_token {text : String} (htable : Delimited table)
    (hsuffix : tokens <:+ Lexer.tokens text) {progress : Progress tokens}
    (hnext : next? table bytes tokens = some progress) {error : Located ParseError}
    (herror : progress.statement = .error error) (hexpects : ExpectsExpression (fromNext tokens)) :
    ∃ written rest expected, Spells (fromNext tokens) written rest ∧
      error = ⟨.unexpected expected (rest.head?.map Lexeme.token), nextSpan bytes rest⟩ ∧
      (∃ (completed : String) (continuation : List Token)
        (progress : Progress (Lexer.tokens completed)) (found : Located Statement),
        (Lexer.tokens completed).map Lexeme.token = written ++ continuation ∧
        next? table (size completed.toList) (Lexer.tokens completed) = some progress ∧
        progress.statement = .ok found ∧ progress.rest = []) ∧
      ∀ {tokens' rest' : List Lexeme} {bytes' : Nat} {progress' : Progress tokens'},
        Spells (fromNext tokens') written rest' →
        rest'.head?.map Lexeme.token = rest.head?.map Lexeme.token →
        next? table bytes' tokens' = some progress' →
        ∃ error', progress'.statement = .error error' := by
  obtain ⟨hne, rest, hrejects, hspan⟩ := rejects_of_next? hnext herror
  obtain ⟨taken, heq⟩ := hrejects.suffix
  have hspells : Spells (fromNext tokens) (taken.map Lexeme.token) rest := ⟨taken, heq.symm, rfl⟩
  obtain ⟨⟨expected, hexpected⟩, hcontinues⟩ := continues_whole htable hexpects hrejects hspells
  have hstart : taken ++ rest <:+ Lexer.tokens text := heq ▸ (List.dropWhile_suffix _).trans hsuffix
  refine ⟨_, rest, expected, hspells, ?_, exists_completed hcontinues ?_ ?_, ?dead⟩
  · rw [← hexpected, ← hspan]
  · intro token htoken
    obtain ⟨lexeme, hmem, rfl⟩ := List.mem_map.1 htoken
    exact spellable_of_mem (hstart.subset (List.mem_append_left _ hmem))
  · intro token htoken
    obtain ⟨later, hlater⟩ := List.head?_eq_some_iff.1 htoken
    obtain ⟨first, more, rfl, rfl, -⟩ := List.map_eq_cons_iff.1 hlater
    exact endsStatement_of_fromNext heq.symm
  case dead =>
    intro tokens' rest' bytes' progress' hspells' hsame hnext'
    have hrejects' : (whole table (fromNext tokens')).Rejects error.value rest' :=
      (peeks_whole table _).rejects (Nat.lt_succ_self _) hrejects ⟨_, hspells, hspells'⟩ hsame.symm
    cases hfound : progress'.statement with
    | error error' => exact ⟨error', rfl⟩
    | ok found =>
      obtain ⟨-, last, haccepts, -⟩ := accepts_of_next? hnext' hfound
      exact (hrejects'.not_accepts _ _ haccepts).elim

/-- The second name in `f(a b)` is wrong, and up to it the call can be completed. -/
theorem second_name_is_wrong :
    Delimited .seed ∧ Lexer.tokens "f(a b)" <:+ Lexer.tokens "f(a b)" ∧
    ExpectsExpression (fromNext (Lexer.tokens "f(a b)")) ∧
    ∃ (progress : Progress (Lexer.tokens "f(a b)")) (error : Located ParseError),
      next? .seed 6 (Lexer.tokens "f(a b)") = some progress ∧ progress.statement = .error error ∧
      ∃ written rest expected, Spells (fromNext (Lexer.tokens "f(a b)")) written rest ∧
        error = ⟨.unexpected expected (rest.head?.map Lexeme.token), nextSpan 6 rest⟩ ∧
        ∃ (completed : String) (continuation : List Token)
          (progress : Progress (Lexer.tokens completed)) (found : Located Statement),
          (Lexer.tokens completed).map Lexeme.token = written ++ continuation ∧
          next? .seed (size completed.toList) (Lexer.tokens completed) = some progress ∧
          progress.statement = .ok found ∧ progress.rest = [] := by
  have htable : Delimited .seed := by decide
  have hexpects : ExpectsExpression (fromNext (Lexer.tokens "f(a b)")) := .inl (by decide +kernel)
  obtain ⟨progress, error, hnext, herror⟩ :
      ∃ (progress : Progress (Lexer.tokens "f(a b)")) (error : Located ParseError),
        next? .seed 6 (Lexer.tokens "f(a b)") = some progress ∧ progress.statement = .error error :=
    exists_rejected (by decide +kernel)
  obtain ⟨written, rest, expected, hspells, hreported, hcompleted, -⟩ :=
    rejected_at_first_wrong_token htable List.suffix_rfl hnext herror hexpects
  exact ⟨htable, List.suffix_rfl, hexpects, progress, error, hnext, herror, written, rest, expected,
    hspells, hreported, hcompleted⟩

end Parser

end Kaleidoscope
