import Kaleidoscope.Proofs.Parser.Lookahead
import Kaleidoscope.Proofs.Token.Positions
import Kaleidoscope.Proofs.Token.Slices

/-!
# Statements stand alone

A statement reaches from the start of its first token to the end of its last one, and what stands
there is the statement: read alone, it is the same one. The semicolon behind it gives way to the end
of the text, which no reader of a statement tells apart from it, and the tokens are the same ones,
since they were cut at their ends.
-/

namespace Kaleidoscope.Parser

open Source (size)

variable {table : OperatorTable} {bytes : Nat} {tokens rest : List Lexeme} {found : Statement}

/-- A statement that is accepted takes some tokens, and a semicolon follows, or nothing. -/
theorem exists_taken_of_accepts (hne : fromNext tokens ≠ [])
    (h : (whole table (fromNext tokens)).Accepts found rest) :
    ∃ taken first last, fromNext tokens = taken ++ rest ∧ taken.head? = some first ∧
      taken.getLast? = some last ∧ first.token.endsStatement = false ∧
      ∀ next ∈ rest.head?, next.token.endsStatement := by
  have hends := endsStatement_of_accepts h
  obtain ⟨taken, heq⟩ := h.suffix
  obtain ⟨first, more, hcons⟩ := List.exists_cons_of_ne_nil hne
  have hfirst := endsStatement_of_fromNext hcons
  cases taken with
  | nil =>
    -- Then the semicolon behind the statement would be its first token.
    obtain rfl : rest = first :: more := heq.trans hcons
    rw [hends first rfl] at hfirst
    cases hfirst
  | cons first' taken =>
    obtain ⟨rfl, -⟩ := List.cons.inj (heq.trans hcons)
    exact ⟨first' :: taken, first', _, heq.symm, rfl,
      List.getLast?_eq_some_getLast (List.cons_ne_nil _ _), hfirst, hends⟩

/-- A statement reaches from its first token to its last one. -/
theorem spanUpTo_taken {taken : List Lexeme} {first last : Lexeme} (hfirst : taken.head? = some first)
    (hlast : taken.getLast? = some last) (rest : List Lexeme) :
    spanUpTo (taken ++ rest) rest = ⟨first.span.start, last.span.stop⟩ := by
  obtain ⟨more, rfl⟩ := List.head?_eq_some_iff.1 hfirst
  have happend := spanUpTo_append (List.cons_ne_nil first more) [] rest
  rw [List.nil_append] at happend
  have hself : spanUpTo (first :: more) [] = ⟨first.span.start, last.span.stop⟩ := by
    simp only [spanUpTo, List.length_nil, Nat.sub_zero, List.take_length, hlast]
  rw [happend, hself]

/-- A statement whose tokens have been cut out is read again, at its new place, and nothing is
left. -/
theorem next?_of_cut (bytes : Nat) {taken cut : List Lexeme} {first last : Lexeme}
    (haccepts : (whole table (taken ++ rest)).Accepts found rest)
    (hfirst : taken.head? = some first) (hlast : taken.getLast? = some last)
    (hends : first.token.endsStatement = false) (hcut : taken = cut.map (Lexeme.shift first.span.start)) :
    ∃ progress, next? table bytes cut = some progress ∧
      progress.statement = .ok ⟨found, ⟨0, last.span.stop - first.span.start⟩⟩ ∧
      progress.rest = [] := by
  have htokens : taken.map Lexeme.token = cut.map Lexeme.token := by
    rw [hcut, List.map_map]
    rfl
  have htogether : Together (taken ++ rest) rest cut [] :=
    ⟨_, spells_of_append taken rest, cut, (List.append_nil cut).symm, htokens.symm⟩
  have hread : (whole table cut).Accepts found [] :=
    (peeks_whole table _).accepts (Nat.lt_succ_self _) haccepts htogether (.inr rfl)
  rw [hcut, List.head?_map] at hfirst
  rw [hcut, List.getLast?_map] at hlast
  obtain ⟨first', hfirst', hshift⟩ := Option.map_eq_some_iff.1 hfirst
  obtain ⟨last', hlast', hshift'⟩ := Option.map_eq_some_iff.1 hlast
  obtain ⟨more, rfl⟩ := List.head?_eq_some_iff.1 hfirst'
  have hends' : first'.token.endsStatement = false := by rw [← hends, ← hshift]; rfl
  have hstart : fromNext (first' :: more) = first' :: more := fromNext_cons hends' more
  obtain ⟨progress, hnext, hstatement, hrest⟩ :=
    @next?_of_accepts table _ _ bytes found (by rw [hstart]; exact List.cons_ne_nil _ _) (hstart ▸ hread)
  refine ⟨progress, hnext, ?_, hrest⟩
  have hspan := spanUpTo_taken hfirst' hlast' []
  rw [List.append_nil] at hspan
  have hstartShift : first.span.start + first'.span.start = first.span.start :=
    congrArg (·.span.start) hshift
  have hstopShift : first.span.start + last'.span.stop = last.span.stop :=
    congrArg (·.span.stop) hshift'
  rw [hstatement, hstart, hspan, show first'.span.start = 0 by omega,
    show last'.span.stop = last.span.stop - first.span.start by omega]

/-- A statement stands between two cuts of its source: at the start of its first token, and at the
end of its last one, behind which there is a semicolon or nothing. Statements that are read later,
with whatever operators, stand behind it. What stands between the cuts is the statement: read alone,
it is the same one, from its start to its end, and no token is left. -/
theorem statement_stands_alone {text : String} (hsuffix : tokens <:+ Lexer.tokens text)
    {progress : Progress tokens} {found : Located Statement}
    (hnext : next? table bytes tokens = some progress) (hfound : progress.statement = .ok found) :
    (∃ taken rest first last, fromNext tokens = taken ++ rest ∧ taken.head? = some first ∧
      taken.getLast? = some last ∧ found.span = ⟨first.span.start, last.span.stop⟩ ∧
      (∀ next ∈ rest.head?, next.token.endsStatement) ∧ progress.rest = rest.drop 1) ∧
    (∀ {table' : OperatorTable} {bytes' : Nat} {tokens' : List Lexeme} {progress' : Progress tokens'}
      {found' : Located Statement}, tokens' <:+ progress.rest →
      next? table' bytes' tokens' = some progress' → progress'.statement = .ok found' →
      found.span.stop ≤ found'.span.start) ∧
    ∃ front slice behind, text.toList = front ++ slice ++ behind ∧ size front = found.span.start ∧
      size (front ++ slice) = found.span.stop ∧
      ∃ progress' : Progress (Lexer.tokens (String.ofList slice)),
        next? table (size slice) (Lexer.tokens (String.ofList slice)) = some progress' ∧
        progress'.statement = .ok ⟨found.value, ⟨0, found.span.stop - found.span.start⟩⟩ ∧
        next? table (size slice) progress'.rest = none := by
  obtain ⟨hne, rest, haccepts, hspan, hrest⟩ := accepts_of_next? hnext hfound
  obtain ⟨taken, first, last, heq, hfirst, hlast, hends, hbehind⟩ :=
    exists_taken_of_accepts hne haccepts
  rw [heq, spanUpTo_taken hfirst hlast] at hspan
  have hstart : taken ++ rest <:+ Lexer.tokens text := heq ▸ (List.dropWhile_suffix _).trans hsuffix
  refine ⟨⟨taken, rest, first, last, heq, hfirst, hlast, hspan, hbehind, hrest⟩, ?later, ?slice⟩
  case later =>
    intro table' bytes' tokens' progress' found' hsuffix' hnext' hfound'
    obtain ⟨hne', rest', haccepts', hspan', -⟩ := accepts_of_next? hnext' hfound'
    obtain ⟨taken', first', last', heq', hfirst', hlast', -, -⟩ :=
      exists_taken_of_accepts hne' haccepts'
    rw [heq', spanUpTo_taken hfirst' hlast'] at hspan'
    have hmem' : first' ∈ rest := by
      have hstart' : fromNext tokens' <:+ tokens' := List.dropWhile_suffix _
      have htokens' : first' ∈ tokens' := hstart'.subset <| by
        rw [heq']
        exact List.mem_append_left _ (List.mem_of_head? hfirst')
      exact List.mem_of_mem_drop (hrest ▸ hsuffix'.subset htokens')
    have hapart := ((Lexer.inOrder_tokens text).suffix hstart).apart
    rw [hspan, hspan']
    exact (List.pairwise_append.1 hapart).2.2 last (List.mem_of_getLast? hlast) first' hmem'
  case slice =>
    obtain ⟨front, slice, behind, htext, hfront, hstop, hcut⟩ := Lexer.exists_slice hstart hfirst hlast
    obtain ⟨progress', hnext', hfound', hrest'⟩ :=
      next?_of_cut (size slice) (heq ▸ haccepts) hfirst hlast hends hcut
    rw [hspan]
    refine ⟨front, slice, behind, htext, hfront, hstop, progress', hnext', hfound', ?_⟩
    rw [hrest']
    rfl

/-- In `;f(x)#f\n;y` the call stands between the first byte and the fifth one, and stands alone
there. -/
theorem call_stands_alone :
    Lexer.tokens ";f(x)#f\n;y" <:+ Lexer.tokens ";f(x)#f\n;y" ∧
    ∃ (progress : Progress (Lexer.tokens ";f(x)#f\n;y")) (found : Located Statement),
      next? .seed 10 (Lexer.tokens ";f(x)#f\n;y") = some progress ∧ progress.statement = .ok found ∧
      ∃ front slice behind, ";f(x)#f\n;y".toList = front ++ slice ++ behind ∧ size front = 1 ∧
        size (front ++ slice) = 5 ∧
        ∃ progress' : Progress (Lexer.tokens (String.ofList slice)),
          next? .seed (size slice) (Lexer.tokens (String.ofList slice)) = some progress' ∧
          progress'.statement = .ok ⟨found.value, ⟨0, 4⟩⟩ := by
  obtain ⟨progress, found, hnext, hfound, hspan, -⟩ :
      ∃ (progress : Progress (Lexer.tokens ";f(x)#f\n;y")) (found : Located Statement),
        next? .seed 10 (Lexer.tokens ";f(x)#f\n;y") = some progress ∧ progress.statement = .ok found ∧
        found.span = ⟨1, 5⟩ ∧ progress.rest.length = 1 :=
    exists_read (by decide +kernel)
  obtain ⟨-, -, front, slice, behind, htext, hfront, hstop, progress', hnext', hfound', -⟩ :=
    statement_stands_alone List.suffix_rfl hnext hfound
  rw [hspan] at hfront hstop hfound'
  exact ⟨List.suffix_rfl, progress, found, hnext, hfound, front, slice, behind, htext, hfront, hstop,
    progress', hnext', hfound'⟩

end Kaleidoscope.Parser
