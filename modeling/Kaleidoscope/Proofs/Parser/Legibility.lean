import Kaleidoscope.Proofs.Parser.Callees
import Kaleidoscope.Proofs.Parser.Completeness
import Kaleidoscope.Proofs.Syntax.Unambiguity

/-!
# What is read is legible

The names in an expression that is read are identifiers and its operators are symbols, so the text
of the tree tells which tree it is, whatever program it stood in and whatever operators there were.
-/

namespace Kaleidoscope

namespace Phrase

/-- The name of a local variable is among the tokens. -/
theorem identifier_mem_bindingTokens {bindings : List (String × Option Phrase)}
    {binding : String × Option Phrase} (h : binding ∈ bindings) :
    .identifier binding.1 ∈ bindingTokens bindings := by
  induction bindings with
  | nil => cases h
  | cons first rest ih =>
    obtain ⟨name, value⟩ := first
    by_cases hrest : rest = []
    · subst hrest
      obtain rfl := List.mem_singleton.1 h
      exact List.mem_cons_self
    · rw [bindingTokens_cons hrest]
      rcases List.mem_cons.1 h with rfl | h
      · exact List.mem_cons_self
      · exact List.mem_cons_of_mem _ (List.mem_append_right _ (List.mem_cons_of_mem _ (ih h)))

/-- The local variables of the tree have the names that were written. -/
theorem map_fst_eraseBindings (bindings : List (String × Option Phrase)) :
    (eraseBindings bindings).map Prod.fst = bindings.map Prod.fst := by
  induction bindings with
  | nil => rfl
  | cons first rest ih => rw [eraseBindings, List.map_cons, List.map_cons, ih]

/-- A node is spelled with the words and the symbols that it was written with. -/
theorem spelled_erase {table : OperatorTable} {p : Phrase} (hp : p.Grammatical table)
    (hgroup : p.isGroup = false) (hnames : ∀ name, .identifier name ∈ p.tokens → Lexer.IsWord name)
    (hsymbols : ∀ c, .symbol c ∈ p.tokens → c.isAlpha = false ∧ c ≠ '\n') : p.erase.Spelled := by
  cases p with
  | number value => trivial
  | var name => exact hnames name List.mem_cons_self
  | unary operator operand => exact hsymbols operator List.mem_cons_self
  | binary operator left right =>
    exact hsymbols operator (List.mem_append_right _ List.mem_cons_self)
  | call callee arguments => exact hnames callee List.mem_cons_self
  | conditional condition consequent alternative => trivial
  | loop name start finish step body =>
    exact hnames name (List.mem_cons_of_mem _ List.mem_cons_self)
  | locals bindings body =>
    constructor
    · intro hnil
      have hnames : bindings.map Prod.fst = [] := by rw [← map_fst_eraseBindings, hnil, List.map_nil]
      exact hp (List.map_eq_nil_iff.1 hnames)
    · intro binding hbinding
      have hname := List.mem_map_of_mem (f := Prod.fst) hbinding
      rw [map_fst_eraseBindings] at hname
      obtain ⟨written, hwritten, heq⟩ := List.mem_map.1 hname
      rw [← heq]
      refine hnames _ (List.mem_cons_of_mem _ (List.mem_append_left _ ?_))
      exact identifier_mem_bindingTokens hwritten
  | group => cases hgroup

end Phrase

deriving instance DecidableEq for Lexeme

namespace Parser

variable {table table' : OperatorTable} {text text' : String} {tokens tokens' rest rest' : List Lexeme}
  {e e' : Expr}

/-- An expression that is read was written so that its nodes are spelled with words and symbols. -/
theorem exists_spelled_of_accepts (hsuffix : tokens <:+ Lexer.tokens text)
    (h : (expression table tokens).Accepts e rest) :
    ∃ p : Phrase, p.erase = e ∧ p.Every fun q => q.isGroup = false → q.erase.Spelled := by
  obtain ⟨p, rfl, hp⟩ := exists_phrase_of_accepts h
  refine ⟨p, rfl, hp.mono fun q ⟨hgrammatical, htokens⟩ hgroup => ?_⟩
  have hpiece (token : Token) (h : token ∈ q.tokens) :
      ∃ c rest cs, Lexer.piece c rest = .found token cs := by
    obtain ⟨lexeme, hmem, rfl⟩ := htokens token h
    exact Lexer.exists_piece_of_mem_scan (hsuffix.subset hmem)
  refine q.spelled_erase hgrammatical hgroup (fun name hname => ?_) fun c hc => ?_
  · obtain ⟨first, behind, cs, heq⟩ := hpiece _ hname
    exact Lexer.isWord_of_piece heq
  · obtain ⟨first, behind, cs, heq⟩ := hpiece _ hc
    obtain ⟨hblank, halpha⟩ := Lexer.isBlank_isAlpha_of_piece heq
    refine ⟨halpha, ?_⟩
    rintro rfl
    cases hblank

/-- The nodes of an expression that is read are spelled with words and symbols. -/
theorem spelled_of_accepts (hsuffix : tokens <:+ Lexer.tokens text)
    (h : (expression table tokens).Accepts e rest) : e.Every Expr.Spelled := by
  obtain ⟨p, rfl, hp⟩ := exists_spelled_of_accepts hsuffix h
  exact hp.erase fun q hspelled hgroup => hspelled hgroup

/-- The nodes of an expression that is read are legible if its literals are finite. -/
theorem legible_of_accepts (hsuffix : tokens <:+ Lexer.tokens text)
    (h : (expression table tokens).Accepts e rest) (hfinite : e.Every Expr.FiniteLiteral) :
    e.Every Expr.Legible := by
  obtain ⟨p, rfl, hp⟩ := exists_spelled_of_accepts hsuffix h
  refine (hp.of_erase hfinite (R := fun q => q.isGroup = false → q.erase.Legible) ?_).erase
    fun q hlegible hgroup => hlegible hgroup
  exact fun q hspelled hliteral hgroup => (hspelled hgroup).legible (hliteral hgroup)

/-- Trees that are read are equal if their texts are, whatever programs they stood in and whatever
operators there were, as long as their literals are finite. -/
theorem expression_eq_of_text_eq (hsuffix : tokens <:+ Lexer.tokens text)
    (hsuffix' : tokens' <:+ Lexer.tokens text') (h : (expression table tokens).Accepts e rest)
    (h' : (expression table' tokens').Accepts e' rest') (hfinite : e.Every Expr.FiniteLiteral)
    (hfinite' : e'.Every Expr.FiniteLiteral) (htext : e.text = e'.text) : e = e' := by
  have hdistinct : Distinct Expr.characters (Expr.Every Expr.Legible) e :=
    Expr.distinct_characters (legible_of_accepts hsuffix h hfinite)
  have hsame : e.characters ++ [] = e'.characters ++ [] := by rw [Expr.characters, Expr.characters, htext]
  exact (hdistinct (legible_of_accepts hsuffix' h' hfinite') severed_nil severed_nil hsame).1

/-- A sum in `1+x` is that in `1 + x # y` with another precedence, as its text tells. -/
theorem sum_eq_of_text_eq :
    (expression .seed (Lexer.tokens "1+x")).Accepts (.binary '+' (.number 1) (.var "x")) [] ∧
    (expression ⟨⟨[('+', 7)]⟩⟩ (Lexer.tokens "1 + x # y")).Accepts
      (.binary '+' (.number 1) (.var "x")) [] ∧
    (Expr.binary '+' (.number 1) (.var "x")).Every Expr.FiniteLiteral ∧
    Expr.binary '+' (.number 1) (.var "x") = .binary '+' (.number 1) (.var "x") := by
  let p : Phrase := .binary '+' (.number 1) (.var "x")
  have hread {table : OperatorTable} {text : String} (htable : Delimited table)
      (hplus : (table.lookup '+').isSome)
      (htext : (Lexer.tokens text).map Lexeme.token = p.tokens) :
      (expression table (Lexer.tokens text)).Accepts p.erase [] := by
    have hreadable : Readable table p :=
      .binary ⟨⟨fun _ _ => ⟨nofun, nofun⟩, rfl⟩, fun _ => hplus⟩
        (.number ⟨trivial, fun _ => trivial⟩) (.var ⟨trivial, fun _ => trivial⟩)
    exact (readBack htable hreadable).expression ⟨_, (List.append_nil _).symm, htext⟩ ends_nil
  have h : (expression .seed (Lexer.tokens "1+x")).Accepts p.erase [] :=
    hread (by decide) rfl (by decide +kernel)
  have h' : (expression ⟨⟨[('+', 7)]⟩⟩ (Lexer.tokens "1 + x # y")).Accepts p.erase [] :=
    hread (by decide) rfl (by decide +kernel)
  have hone : Number.IsFinite 1 := by decide +kernel
  have hfinite : (Expr.binary '+' (.number 1) (.var "x")).Every Expr.FiniteLiteral :=
    .binary trivial (.number hone) (.var trivial)
  exact ⟨h, h', hfinite,
    expression_eq_of_text_eq List.suffix_rfl List.suffix_rfl h h' hfinite hfinite rfl⟩

end Parser

end Kaleidoscope
