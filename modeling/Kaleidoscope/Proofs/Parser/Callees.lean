import Kaleidoscope.Proofs.Parser.Soundness
import Kaleidoscope.Proofs.Syntax.Signatures
import Kaleidoscope.Proofs.Token.Words

/-!
# Callees are words

What is called by name in an expression that is read is named by an identifier, so it is a word. The
function of a bare expression is not: no program can call it.
-/

namespace Kaleidoscope

/-- If the node calls a function by its name, the name is a word. -/
def Expr.CallsWord : Expr → Prop
  | call callee _ => ∀ c ∈ callee.toList, c.isAlphanum
  | _ => True

/-- The function of a bare expression has no word for its name. -/
theorem Prototype.ne_anonymousName_of_word {name : String} (h : ∀ c ∈ name.toList, c.isAlphanum) :
    name ≠ anonymousName := by
  rintro rfl
  have := h '_' (by decide)
  revert this
  decide

/-- A call by name is no call of the function of a bare expression. -/
theorem Expr.CallsWord.ne_anonymousName {callee : String} {arguments : List Expr}
    (h : (Expr.call callee arguments).CallsWord) : callee ≠ Prototype.anonymousName :=
  Prototype.ne_anonymousName_of_word h

/-- The function of a bare expression is behind no prefix operator. -/
theorem Prototype.anonymousName_ne_unaryName (operator : Char) :
    anonymousName ≠ unaryName operator := by
  rw [Ne, ← String.toList_inj]
  simp [anonymousName, unaryName]

namespace Parser

variable {table : OperatorTable} {tokens rest : List Lexeme} {e : Expr}

/-- An expression that is read was written with the tokens that there are. -/
theorem exists_phrase_of_accepts (h : (expression table tokens).Accepts e rest) :
    ∃ p : Phrase, p.erase = e ∧ p.Every fun q =>
      q.Grammatical table ∧ ∀ token ∈ q.tokens, ∃ lexeme ∈ tokens, lexeme.token = token := by
  obtain ⟨p, ⟨hp, herase, consumed, rfl, hconsumed⟩, -⟩ := soundBelow table _ (Nat.lt_succ_self _) h
  refine ⟨p, herase, (hp.tokens_subset (List.Subset.refl _)).mono fun q ⟨hq, hsubset⟩ => ?_⟩
  refine ⟨hq.1, fun token htoken => ?_⟩
  obtain ⟨lexeme, hmem, heq⟩ := List.mem_map.1 (hconsumed ▸ hsubset htoken)
  exact ⟨lexeme, List.mem_append_left _ hmem, heq⟩

/-- The callees in an expression that is read are words. -/
theorem callsWord_of_accepts (hwords : Lexer.NamesAreWords tokens)
    (h : (expression table tokens).Accepts e rest) : e.Every Expr.CallsWord := by
  obtain ⟨p, rfl, hp⟩ := exists_phrase_of_accepts h
  refine hp.erase fun q ⟨_, hq⟩ hgroup => ?_
  cases q with
  | call callee arguments =>
    obtain ⟨lexeme, hmem, htoken⟩ := hq (.identifier callee) List.mem_cons_self
    exact hwords lexeme hmem callee htoken
  | group => cases hgroup
  | _ => trivial

end Parser

end Kaleidoscope
