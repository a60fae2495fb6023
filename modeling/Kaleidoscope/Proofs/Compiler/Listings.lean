import Kaleidoscope.Compiler
import Kaleidoscope.Proofs.Lowering.Legibility
import Kaleidoscope.Proofs.Parser.Legibility
import Kaleidoscope.Proofs.Parser.Sentences

/-!
# Functions are told by their listings

Whatever statement of whatever program a function is generated for, its names come from the text:
words that are read, operators that are read, and the name of a bare expression. So the listing
tells which function it is, down to the number of its values, even if parameters have the same name.
-/

namespace Kaleidoscope

open Lexer (IsWord)

/-- Every parameter is written as an identifier. -/
theorem Heading.identifier_mem_parameterMarks {parameters : List String} {name : String}
    (h : name ∈ parameters) : .identifier name ∈ (parameterMarks parameters).map Mark.token := by
  have hmark : .plain (.identifier name) ∈ parameterMarks parameters :=
    List.mem_cons_of_mem _ (List.mem_append_left _ (List.mem_map_of_mem h))
  exact List.mem_map_of_mem hmark

/-- No line break is an operator. -/
theorem ne_newline_of_isOperatorChar {c : Char} (h : Token.isOperatorChar c) : c ≠ '\n' := by
  rintro rfl
  exact absurd h (by decide)

/-- The names in a signature are those that are written. -/
theorem Heading.WellFormed.spelled {heading : Heading} (h : heading.WellFormed)
    (hnames : ∀ name, .identifier name ∈ heading.marks.map Mark.token → IsWord name) :
    heading.prototype.Spelled := by
  cases heading with
  | plain name parameters =>
    refine ⟨Ssa.isCallee_of_isWord (hnames name List.mem_cons_self), fun parameter hmem => ?_⟩
    exact hnames parameter (List.mem_cons_of_mem _ (identifier_mem_parameterMarks hmem))
  | unary operator parameters =>
    refine ⟨Prototype.isCallee_unaryName (ne_newline_of_isOperatorChar h), fun parameter hmem => ?_⟩
    refine hnames parameter (List.mem_cons_of_mem _ (List.mem_cons_of_mem _ ?_))
    exact identifier_mem_parameterMarks hmem
  | binary operator stated parameters =>
    refine ⟨Prototype.isCallee_binaryName (ne_newline_of_isOperatorChar h), fun parameter hmem => ?_⟩
    refine hnames parameter (List.mem_cons_of_mem _ (List.mem_cons_of_mem _ ?_))
    rw [List.map_append]
    exact List.mem_append_right _ (identifier_mem_parameterMarks hmem)

/-- A bare expression becomes a function that can be told by its name. -/
theorem Prototype.spelled_anonymous : anonymous.Spelled where
  name := ⟨by decide, by decide⟩
  parameters := List.forall_mem_nil _

/-- The function that a statement asks for: a definition as it is, and a bare expression under the
name that no program can spell. -/
def Statement.definition? : Statement → Option Definition
  | definition d => some d
  | declaration _ => none
  | evaluation body => some ⟨.anonymous, body⟩

namespace Parser

variable {text : String} {table : OperatorTable} {tokens rest : List Lexeme}

/-- A signature that is read is spelled with words and symbols. -/
theorem spelled_of_accepts_prototype (hsuffix : tokens <:+ Lexer.tokens text) {p : Prototype}
    (h : (prototype tokens).Accepts p rest) : p.Spelled := by
  obtain ⟨heading, hheading, rfl, consumed, rfl, hconsumed⟩ := heading_sound h
  refine hheading.spelled fun name hname => ?_
  obtain ⟨lexeme, hmem, htoken⟩ := List.mem_map.1 (hconsumed ▸ hname)
  obtain ⟨c, behind, cs, hpiece⟩ :=
    Lexer.exists_piece_of_mem_scan (hsuffix.subset (List.mem_append_left _ hmem))
  exact Lexer.isWord_of_piece (htoken ▸ hpiece)

/-- The function that a statement asks for is spelled with words and symbols. -/
theorem AcceptsStatement.spelled (hsuffix : tokens <:+ Lexer.tokens text) {found : Statement}
    (h : AcceptsStatement table tokens found rest) {d : Definition} (hd : found.definition? = some d) :
    d.prototype.Spelled ∧ d.body.Every Expr.Spelled := by
  cases h with
  | definition hword hprototype hbody =>
    cases hd
    have hmore := hword.suffix.trans hsuffix
    exact ⟨spelled_of_accepts_prototype hmore hprototype,
      spelled_of_accepts (hprototype.suffix.trans hmore) hbody⟩
  | declaration => cases hd
  | evaluation _ hbody =>
    cases hd
    exact ⟨Prototype.spelled_anonymous, spelled_of_accepts hsuffix hbody⟩

end Parser

/-- The function is generated for a statement that is read somewhere in the text, whatever
operators, functions and signatures are known there. -/
inductive IsGenerated (text : String) : Ssa.Function → Prop where
  | intro {table tokens rest statement d program prototypes lowered} :
      tokens <:+ Lexer.tokens text → (Parser.whole table tokens).Accepts statement rest →
      statement.definition? = some d → lower ⟨d.prototype, program, prototypes⟩ d.body = .ok lowered →
      IsGenerated text lowered.function

/-- Functions that are generated for statements are legible. -/
theorem IsGenerated.exists_legible {text : String} {f : Ssa.Function} (h : IsGenerated text f) :
    ∃ body, f.Legible body := by
  obtain ⟨hsuffix, hwhole, hd, hlower⟩ := h
  obtain ⟨hself, hbody⟩ := (Parser.acceptsStatement hwhole).spelled hsuffix hd
  exact exists_legible_of_lower hself hbody hlower

/-- Functions that are generated for statements are equal if their listings are, whatever programs
the statements stood in and whatever was known there. -/
theorem function_eq_of_listing_eq {text text' : String} {f f' : Ssa.Function} (h : IsGenerated text f)
    (h' : IsGenerated text' f') (heq : f.listing = f'.listing) : f = f' := by
  obtain ⟨body, hbody⟩ := h.exists_legible
  obtain ⟨body', hbody'⟩ := h'.exists_legible
  exact hbody.eq_of_listing_eq hbody' heq

/-- The second parameter of a function stands in the way of the first one, in whichever text it is
defined. -/
theorem shadowed_eq_of_listing_eq :
    ∃ f f', IsGenerated "def f(x x) x" f ∧ IsGenerated "1 def f(x x) (x) # x" f' ∧
      f.listing = f'.listing ∧ f = f' := by
  let d : Definition := ⟨⟨"f", ["x", "x"], .plain⟩, .var "x"⟩
  obtain ⟨lowered, hlower⟩ :
      ∃ lowered, lower ⟨d.prototype, .empty, .empty⟩ d.body = .ok lowered := ⟨_, rfl⟩
  -- The body may stand in parentheses and the operators may be others: the same is read.
  have hread {table : OperatorTable} {tokens : List Lexeme} {p : Phrase}
      (htable : Parser.Delimited table) (hp : Parser.Readable table p) (herase : p.erase = d.body)
      (hwritten : tokens.map Lexeme.token = [.keyword .defKeyword, .identifier "f", .symbol '(',
        .identifier "x", .identifier "x", .symbol ')'] ++ p.tokens) :
      (Parser.whole table tokens).Accepts (.definition d) [] := by
    obtain ⟨body, hopening, hspells⟩ :=
      spells_append.1 ⟨tokens, (List.append_nil _).symm, hwritten⟩
    simp only [spells_cons, spells_nil] at hopening
    obtain ⟨_, ⟨_, rfl⟩, _, ⟨_, rfl⟩, _, ⟨_, rfl⟩, _, ⟨_, rfl⟩, _, ⟨_, rfl⟩, _, ⟨_, rfl⟩, rfl⟩ :=
      hopening
    obtain ⟨suffix, hbody⟩ :=
      herase ▸ (Parser.readBack htable hp).expression hspells Parser.ends_nil
    simp [d, hbody, Parser.whole, Parser.statement, Parser.prototype, Parser.parameters,
      Parser.names, expect, Reading.Accepts, Reading.past, Reading.within, Reading.andThen,
      Reading.map, Reading.done]
  have hvar (table : OperatorTable) : Parser.Readable table (.var "x") :=
    .var ⟨trivial, fun _ => trivial⟩
  have hwhole : (Parser.whole .seed (Lexer.tokens "def f(x x) x")).Accepts (.definition d) [] :=
    hread (by decide) (hvar _) rfl (by decide +kernel)
  have hwhole' : (Parser.whole ⟨⟨[]⟩⟩ ((Lexer.tokens "1 def f(x x) (x) # x").drop 1)).Accepts
      (.definition d) [] :=
    hread (by decide) (.group ⟨trivial, fun h => by cases h⟩ (hvar _)) rfl (by decide +kernel)
  have h : IsGenerated "def f(x x) x" lowered.function := .intro List.suffix_rfl hwhole rfl hlower
  have h' : IsGenerated "1 def f(x x) (x) # x" lowered.function :=
    .intro (List.drop_suffix _ _) hwhole' rfl hlower
  exact ⟨lowered.function, lowered.function, h, h', rfl, function_eq_of_listing_eq h h' rfl⟩

end Kaleidoscope
