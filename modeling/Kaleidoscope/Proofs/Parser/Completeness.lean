import Kaleidoscope.Proofs.Parser.Steps
import Kaleidoscope.Proofs.Syntax.Bracketing

/-!
# What is written is read

A phrase whose operands stand in parentheses where they have to is read as the tree that it means,
and reading stops behind it. An operator application is not read as such: its first operand is, and
then its operators are folded one after the other. So a phrase is followed while something is still
to be folded, and folding what is read of it comes to the same as folding all of it.
-/

namespace Kaleidoscope.Parser

open Reading
open Phrase (Every Grammatical Grouped Bracketed)

variable {table : OperatorTable} {tokens rest : List Lexeme} {p : Phrase}

/-- The node of a tree can be written. An operator between operands is one of the table, one before
an operand is a symbol that may name an operator and closes no parenthesis, and local variables are
at least one. -/
def Writable (table : OperatorTable) : Expr → Prop
  | .unary operator _ => Token.isOperatorChar operator ∧ operator ≠ ')'
  | .binary operator _ _ => (table.lookup operator).isSome
  | .locals bindings _ => bindings ≠ []
  | _ => True

/-- A phrase in which nothing is read otherwise than it is meant: its tree can be written, and has
the parentheses that it needs. -/
def Readable (table : OperatorTable) : Phrase → Prop :=
  Every fun p => Bracketed table p ∧ (p.isGroup = false → Writable table p.erase)

/-- The symbols that enclose, separate and end expressions are no operators. -/
def Delimited (table : OperatorTable) : Prop :=
  ∀ c ∈ ['(', ')', ',', ';'], table.lookup c = none

instance (table : OperatorTable) : Decidable (Delimited table) :=
  List.decidableBAll ..

/-- What follows makes no call of a name before it. -/
def NoCall (tokens : List Lexeme) : Prop :=
  ∀ more, ¬ Takes (.symbol '(') tokens more

/-- What follows does not go on with an expression. -/
def Ends (table : OperatorTable) (tokens : List Lexeme) : Prop :=
  NoCall tokens ∧ Loose table 0 tokens

/-- What follows does not go on with the last operand of the phrase. -/
def Follows (table : OperatorTable) (p : Phrase) (tokens : List Lexeme) : Prop :=
  NoCall tokens ∧ (p.endsOpen = true → Loose table 0 tokens)

/-- What ends an expression follows each. -/
theorem Ends.follows (h : Ends table rest) (p : Phrase) : Follows table p rest :=
  ⟨h.1, fun _ => h.2⟩

/-- The end of the tokens ends an expression. -/
theorem ends_nil : Ends table [] := ⟨nofun, nofun⟩

/-- A word ends an expression. -/
theorem ends_of_keyword {word : Keyword} (h : Takes (.keyword word) tokens rest) :
    Ends table tokens :=
  ⟨h.not_takes (by simp), fun _ _ more h' _ => (h.not_takes (by simp) more h').elim⟩

/-- A symbol that is no operator ends an expression, unless it opens a parenthesis. -/
theorem ends_of_symbol {c : Char} (hopen : c ≠ '(') (hlookup : table.lookup c = none)
    (h : Takes (.symbol c) tokens rest) : Ends table tokens := by
  refine ⟨fun more h' => ?_, fun c' precedence more h' hlookup' => ?_⟩
  · exact hopen (Token.symbol.inj (h.unique h').1)
  · obtain rfl := Token.symbol.inj (h.unique h').1
    rw [hlookup] at hlookup'
    cases hlookup'

/-- A delimiter ends an expression, unless it opens a parenthesis. -/
theorem Delimited.ends (htable : Delimited table) {c : Char} (hopen : c ≠ '(')
    (hc : c ∈ ['(', ')', ',', ';']) (h : Takes (.symbol c) tokens rest) : Ends table tokens :=
  ends_of_symbol hopen (htable c hc) h

/-- How a phrase is read: as an operand, if it is no operator application; and in any case so that
folding goes on as if the whole phrase were the operand on the left. -/
structure ReadBack (table : OperatorTable) (p : Phrase) : Prop where
  operand : p.isBinary = false → ∀ {tokens rest}, Spells tokens p.tokens rest →
    Follows table p rest → (unary table tokens).Accepts p.erase rest
  operators : ∀ {tokens rest weakest e last}, Spells tokens p.tokens rest → Follows table p rest →
    (∀ precedence, p.precedence? table = some precedence →
      weakest ≤ precedence ∧ Loose table (precedence + 1) rest) →
    (fold table weakest p.erase rest).Accepts e last →
    ∃ left mid, (unary table tokens).Accepts left mid ∧ (fold table weakest left mid).Accepts e last

/-- It is enough to be read as an operand. -/
theorem readBack_of_operand
    (h : ∀ {tokens rest}, Spells tokens p.tokens rest → Follows table p rest →
      (unary table tokens).Accepts p.erase rest) : ReadBack table p where
  operand := fun _ => h
  operators := fun hspells hfollows _ hfold => ⟨p.erase, _, h hspells hfollows, hfold⟩

/-- What begins with no symbol is read as an operand if it is an expression of its own. -/
theorem accepts_unary_of_primary {first : Token} {more : List Lexeme} {e : Expr}
    (htakes : Takes first tokens more) (hoperator : first.operator? = none)
    (h : AcceptsPrimary table tokens e rest) : (unary table tokens).Accepts e rest := by
  refine accepts_unary.2 (.inr ⟨fun c more' htakes' hc => ?_, accepts_primary.2 h⟩)
  rw [(htakes.unique htakes').1, operator?_eq_some_iff.2 ⟨rfl, hc⟩] at hoperator
  cases hoperator

/-- A phrase is read as an expression where nothing goes on with it. -/
theorem ReadBack.expression (h : ReadBack table p) (hspells : Spells tokens p.tokens rest)
    (hends : Ends table rest) : (expression table tokens).Accepts p.erase rest :=
  accepts_expression.2 <| h.operators hspells (hends.follows p)
    (fun _ _ => ⟨Nat.zero_le _, hends.2.mono (Nat.zero_le _)⟩)
    (accepts_fold.2 (.inl ⟨hends.2, rfl, rfl⟩))

/-- An optional part is read back, where its mark does not follow. -/
theorem optional_complete {mark : Char} {part : Option Phrase} (h : ∀ p ∈ part, ReadBack table p)
    (hspells : Spells tokens (Phrase.partTokens mark part) rest) (hends : Ends table rest)
    (hmark : ∀ more, ¬ Takes (.symbol mark) rest more) :
    (optional table mark tokens).Accepts (Phrase.erasePart part) rest := by
  rw [accepts_optional]
  cases part with
  | none =>
    obtain rfl := spells_nil.1 hspells
    exact .inr ⟨hmark, rfl, rfl⟩
  | some p =>
    obtain ⟨more, htakes, hspells⟩ := spells_cons.1 hspells
    exact .inl ⟨more, p.erase, htakes, (h p rfl).expression hspells hends, rfl⟩

/-- What an optional part is written in ends the expression before it, if its mark does. -/
theorem part_ends {mark : Char} {part : Option Phrase}
    (hmark : ∀ {more}, Takes (.symbol mark) tokens more → Ends table tokens)
    (hspells : Spells tokens (Phrase.partTokens mark part) rest) (hends : Ends table rest) :
    Ends table tokens := by
  cases part with
  | none => exact spells_nil.1 hspells ▸ hends
  | some =>
    obtain ⟨more, htakes, -⟩ := spells_cons.1 hspells
    exact hmark htakes

/-- Arguments are read back. -/
theorem operands_complete (htable : Delimited table) {ps : List Phrase} (hne : ps ≠ [])
    (h : ∀ p ∈ ps, ReadBack table p)
    (hspells : Spells tokens (Phrase.argumentTokens ps ++ [.symbol ')']) rest) :
    (operands table tokens).Accepts (Phrase.eraseArguments ps) rest := by
  induction ps generalizing tokens with
  | nil => exact (hne rfl).elim
  | cons p later ih =>
    rw [accepts_operands]
    obtain ⟨hp, hlater⟩ := List.forall_mem_cons.1 h
    cases later with
    | nil =>
      obtain ⟨mid, hspells, hclosed⟩ := spells_append.1 hspells
      have hclosed := spells_singleton.1 hclosed
      have hends := htable.ends (by decide) (by simp) hclosed
      exact ⟨p.erase, mid, hp.expression hspells hends, .inl ⟨hclosed, rfl⟩⟩
    | cons second others =>
      rw [Phrase.argumentTokens_cons (List.cons_ne_nil _ _), List.append_assoc] at hspells
      obtain ⟨mid, hspells, hmore⟩ := spells_append.1 hspells
      obtain ⟨more, hcomma, hmore⟩ := spells_cons.1 hmore
      have hends := htable.ends (by decide) (by simp) hcomma
      exact ⟨p.erase, mid, hp.expression hspells hends,
        .inr ⟨more, _, hcomma, ih (List.cons_ne_nil _ _) hlater hmore, rfl⟩⟩

/-- Local variables are read back before a word. -/
theorem bindings_complete (htable : Delimited table) {bs : List (String × Option Phrase)}
    (hne : bs ≠ []) (h : ∀ binding ∈ bs, ∀ p ∈ binding.2, ReadBack table p) {word : Keyword}
    {more : List Lexeme} (hspells : Spells tokens (Phrase.bindingTokens bs) rest)
    (hword : Takes (.keyword word) rest more) :
    (bindings table tokens).Accepts (Phrase.eraseBindings bs) rest := by
  have hnone (c : Char) (more' : List Lexeme) : ¬ Takes (.symbol c) rest more' :=
    hword.not_takes (by simp) more'
  induction bs generalizing tokens with
  | nil => exact (hne rfl).elim
  | cons binding later ih =>
    obtain ⟨name, value⟩ := binding
    rw [accepts_bindings]
    obtain ⟨hvalue, hlater⟩ := List.forall_mem_cons.1 h
    cases later with
    | nil =>
      obtain ⟨named, hname, hspells⟩ := spells_cons.1 hspells
      exact ⟨name, named, _, rest, hname,
        optional_complete hvalue hspells (ends_of_keyword hword) (hnone '='),
        .inl ⟨hnone ',', rfl, rfl⟩⟩
    | cons second others =>
      rw [Phrase.bindingTokens_cons (List.cons_ne_nil _ _)] at hspells
      obtain ⟨named, hname, hspells⟩ := spells_cons.1 hspells
      obtain ⟨mid, hspells, hmore⟩ := spells_append.1 hspells
      obtain ⟨behind, hcomma, hmore⟩ := spells_cons.1 hmore
      have hends := htable.ends (by decide) (by simp) hcomma
      have hequals (more' : List Lexeme) : ¬ Takes (.symbol '=') mid more' :=
        hcomma.not_takes (by simp) more'
      exact ⟨name, named, _, mid, hname, optional_complete hvalue hspells hends hequals,
        .inr ⟨behind, _, hcomma, ih (List.cons_ne_nil _ _) hlater hmore, rfl⟩⟩

/-- No phrase begins with a closing parenthesis. -/
theorem tokens_head (h : Readable table p) :
    ∃ first later, p.tokens = first :: later ∧ first ≠ .symbol ')' := by
  induction h with
  | unary h => exact ⟨_, _, rfl, fun heq => (h.2 rfl).2 (Token.symbol.inj heq)⟩
  | binary _ _ _ ihl =>
    obtain ⟨first, later, htokens, hfirst⟩ := ihl
    rw [Phrase.tokens, htokens]
    exact ⟨first, _, List.cons_append .., hfirst⟩
  | group => exact ⟨_, _, rfl, fun heq => absurd (Token.symbol.inj heq) (by decide)⟩
  | _ => exact ⟨_, _, rfl, Token.noConfusion⟩

/-- Arguments are read back where there may be none. -/
theorem arguments_complete (htable : Delimited table) {ps : List Phrase}
    (h : ∀ p ∈ ps, ReadBack table p) (hreadable : ∀ p ∈ ps, Readable table p)
    (hspells : Spells tokens (Phrase.argumentTokens ps ++ [.symbol ')']) rest) :
    (arguments table tokens).Accepts (Phrase.eraseArguments ps) rest := by
  rw [accepts_arguments]
  cases ps with
  | nil => exact .inl ⟨spells_singleton.1 hspells, rfl⟩
  | cons p later =>
    refine .inr ⟨fun more hclosed => ?_, operands_complete htable (List.cons_ne_nil _ _) h hspells⟩
    obtain ⟨first, tail, htokens, hfirst⟩ := tokens_head (hreadable p List.mem_cons_self)
    have hhead : ∃ written, Phrase.argumentTokens (p :: later) ++ [.symbol ')'] = first :: written := by
      cases later with
      | nil => exact ⟨_, by rw [Phrase.argumentTokens, htokens, List.cons_append]⟩
      | cons =>
        rw [Phrase.argumentTokens_cons (List.cons_ne_nil _ _), htokens]
        exact ⟨_, rfl⟩
    obtain ⟨written, hhead⟩ := hhead
    rw [hhead] at hspells
    obtain ⟨more', htakes, -⟩ := spells_cons.1 hspells
    exact hfirst (htakes.unique hclosed).1

/-- An operator application is read back if its operands are: the one on the left is followed by the
operator, which folds it with the one on the right. -/
theorem binary_complete (htable : Delimited table) {operator : Char} {left right : Phrase}
    (hbracketed : Bracketed table (.binary operator left right))
    (hknown : (table.lookup operator).isSome)
    (hleft : ReadBack table left) (hright : ReadBack table right) :
    ReadBack table (.binary operator left right) := by
  refine ⟨nofun, fun {tokens rest weakest e last} hspells hfollows hfits hfold => ?_⟩
  obtain ⟨precedence, hlookup⟩ := Option.isSome_iff_exists.1 hknown
  obtain ⟨hgrouped, hclosed⟩ := hbracketed
  obtain ⟨hgroupedLeft, hgroupedRight⟩ := hgrouped precedence hlookup
  obtain ⟨hweakest, hloose⟩ := hfits precedence hlookup
  obtain ⟨before, hleftSpells, hmore⟩ := spells_append.1 hspells
  obtain ⟨behind, htakes, hrightSpells⟩ := spells_cons.1 hmore
  have hcall : NoCall before := by
    intro more hopen
    obtain rfl := Token.symbol.inj (htakes.unique hopen).1
    rw [htable '(' (by simp)] at hlookup
    cases hlookup
  have hbefore (other : Nat) (hle : precedence ≤ other) : Loose table (other + 1) before := by
    intro c next more h hnext
    obtain rfl := Token.symbol.inj (htakes.unique h).1
    rw [hlookup, Option.some.injEq] at hnext
    omega
  obtain ⟨operand, mid, hoperand, hright⟩ := hright.operators hrightSpells hfollows
    (fun other h => ⟨hgroupedRight other h, hloose.mono (Nat.le_succ_of_le (hgroupedRight other h))⟩)
    (accepts_fold.2 (.inl ⟨hloose, rfl, rfl⟩))
  refine hleft.operators hleftSpells ⟨hcall, fun hopen => ?_⟩ (fun other h => ?_) ?_
  · rw [hclosed] at hopen
    cases hopen
  · exact ⟨Nat.le_trans hweakest (hgroupedLeft other h), hbefore other (hgroupedLeft other h)⟩
  · exact accepts_fold.2 (.inr ⟨operator, precedence, behind, operand, mid, right.erase, rest, htakes,
      hlookup, hweakest, hoperand, hright, hfold⟩)

/-- Every readable phrase is read back. -/
theorem readBack (htable : Delimited table) (h : Readable table p) : ReadBack table p := by
  induction h with
  | number =>
    refine readBack_of_operand fun hspells _ => ?_
    have htakes := spells_singleton.1 hspells
    exact accepts_unary_of_primary htakes rfl (.number htakes)
  | var =>
    refine readBack_of_operand fun hspells hfollows => ?_
    have htakes := spells_singleton.1 hspells
    exact accepts_unary_of_primary htakes rfl (.var htakes hfollows.1)
  | unary h _ ih =>
    refine readBack_of_operand fun hspells hfollows => ?_
    obtain ⟨more, htakes, hspells⟩ := spells_cons.1 hspells
    obtain ⟨hbinary, hwritable⟩ := h
    exact accepts_unary.2 (.inl ⟨_, more, _, htakes, (hwritable rfl).1,
      ih.operand hbinary hspells hfollows, rfl⟩)
  | binary h _ _ ihl ihr => exact binary_complete htable h.1 (h.2 rfl) ihl ihr
  | call h hps ih =>
    refine readBack_of_operand fun hspells _ => ?_
    obtain ⟨opened, htakes, hspells⟩ := spells_cons.1 hspells
    obtain ⟨more, hopen, hspells⟩ := spells_cons.1 hspells
    exact accepts_unary_of_primary htakes rfl
      (.call htakes hopen (arguments_complete htable ih hps hspells))
  | conditional h _ _ _ ihc iht iha =>
    refine readBack_of_operand fun hspells hfollows => ?_
    obtain ⟨more, htakes, hspells⟩ := spells_cons.1 hspells
    obtain ⟨tested, hcondition, hspells⟩ := spells_append.1 hspells
    obtain ⟨first, hthen, hspells⟩ := spells_cons.1 hspells
    obtain ⟨middle, hconsequent, hspells⟩ := spells_append.1 hspells
    obtain ⟨second, helse, halternative⟩ := spells_cons.1 hspells
    exact accepts_unary_of_primary htakes rfl (.conditional htakes
      (ihc.expression hcondition (ends_of_keyword hthen)) hthen
      (iht.expression hconsequent (ends_of_keyword helse)) helse
      (iha.expression halternative ⟨hfollows.1, hfollows.2 rfl⟩))
  | loop h _ _ _ _ ihs ihf ihstep ihb =>
    refine readBack_of_operand fun hspells hfollows => ?_
    obtain ⟨more, htakes, hspells⟩ := spells_cons.1 hspells
    obtain ⟨named, hname, hspells⟩ := spells_cons.1 hspells
    obtain ⟨first, hequals, hspells⟩ := spells_cons.1 hspells
    obtain ⟨started, hstart, hspells⟩ := spells_append.1 hspells
    obtain ⟨second, hcomma, hspells⟩ := spells_cons.1 hspells
    obtain ⟨finished, hfinish, hspells⟩ := spells_append.1 hspells
    obtain ⟨stepped, hstep, hspells⟩ := spells_append.1 hspells
    obtain ⟨third, hin, hbody⟩ := spells_cons.1 hspells
    have hfinished : Ends table finished := part_ends (htable.ends (by decide) (by simp)) hstep
      (ends_of_keyword hin)
    have hnone (more' : List Lexeme) : ¬ Takes (.symbol ',') stepped more' :=
      hin.not_takes (by simp) more'
    exact accepts_unary_of_primary htakes rfl (.loop htakes hname hequals
      (ihs.expression hstart (htable.ends (by decide) (by simp) hcomma)) hcomma
      (ihf.expression hfinish hfinished)
      (optional_complete ihstep hstep (ends_of_keyword hin) hnone) hin
      (ihb.expression hbody ⟨hfollows.1, hfollows.2 rfl⟩))
  | locals h _ _ ihs ihb =>
    refine readBack_of_operand fun hspells hfollows => ?_
    obtain ⟨more, htakes, hspells⟩ := spells_cons.1 hspells
    obtain ⟨stop, hbindings, hspells⟩ := spells_append.1 hspells
    obtain ⟨first, hin, hbody⟩ := spells_cons.1 hspells
    have hne {bindings : List (String × Option Phrase)} {body : Phrase}
        (h : Writable table (Phrase.locals bindings body).erase) : bindings ≠ [] := by
      rintro rfl
      exact h rfl
    exact accepts_unary_of_primary htakes rfl (.locals htakes
      (bindings_complete htable (hne (h.2 rfl)) ihs hbindings hin) hin
      (ihb.expression hbody ⟨hfollows.1, hfollows.2 rfl⟩))
  | group h _ ih =>
    refine readBack_of_operand fun hspells _ => ?_
    obtain ⟨more, htakes, hspells⟩ := spells_cons.1 hspells
    obtain ⟨closed, hinner, hclosed⟩ := spells_append.1 hspells
    have hclosed := spells_singleton.1 hclosed
    exact accepts_unary_of_primary htakes rfl (.group htakes
      (ih.expression hinner (htable.ends (by decide) (by simp) hclosed)) hclosed)

/-- Parsing undoes printing. However a tree is written, with parentheses at least where they have to
stand, it is what is read, and reading stops behind it. -/
theorem written_is_read (htable : Delimited table) {e : Expr} (he : e.Every (Writable table))
    (herase : p.erase = e) (hp : p.Every (Bracketed table)) (hspells : Spells tokens p.tokens rest)
    (hrest : ∀ c more, Takes (.symbol c) rest more → c ≠ '(' ∧ table.lookup c = none) :
    (expression table tokens).Accepts e rest := by
  subst herase
  have hreadable : Readable table p := hp.of_erase he fun _ hb hw => ⟨hb, hw⟩
  have hends : Ends table rest := by
    refine ⟨fun more htakes => (hrest _ more htakes).1 rfl, fun c _ more htakes hlookup => ?_⟩
    rw [(hrest c more htakes).2] at hlookup
    cases hlookup
  exact (readBack htable hreadable).expression hspells hends

/-- What is written as `(a + b) * -c;` is read as a product. -/
theorem product_is_read :
    Delimited .seed ∧
    (expression .seed [⟨.symbol '(', ⟨0, 1⟩⟩, ⟨.identifier "a", ⟨1, 2⟩⟩,
        ⟨.symbol '+', ⟨2, 3⟩⟩, ⟨.identifier "b", ⟨3, 4⟩⟩, ⟨.symbol ')', ⟨4, 5⟩⟩,
        ⟨.symbol '*', ⟨5, 6⟩⟩, ⟨.symbol '-', ⟨6, 7⟩⟩, ⟨.identifier "c", ⟨7, 8⟩⟩,
        ⟨.symbol ';', ⟨8, 9⟩⟩]).Accepts
      (.binary '*' (.binary '+' (.var "a") (.var "b")) (.unary '-' (.var "c")))
      [⟨.symbol ';', ⟨8, 9⟩⟩] := by
  have htable : Delimited .seed := by decide
  let p : Phrase := .binary '*' (.group (.binary '+' (.var "a") (.var "b"))) (.unary '-' (.var "c"))
  have he : p.erase.Every (Writable .seed) :=
    .binary rfl (.binary rfl (.var trivial) (.var trivial)) (.unary ⟨by decide, by decide⟩ (.var trivial))
  have hp : p.Every (Bracketed .seed) :=
    .binary ⟨fun _ _ => ⟨nofun, nofun⟩, rfl⟩
      (.group trivial (.binary ⟨fun _ _ => ⟨nofun, nofun⟩, rfl⟩ (.var trivial) (.var trivial)))
      (.unary rfl (.var trivial))
  refine ⟨htable, written_is_read htable he rfl hp ⟨[_, _, _, _, _, _, _, _], rfl, rfl⟩ ?_⟩
  rintro c more ⟨_, h⟩
  cases h
  decide

/-- With parentheses around every operand of an operator, every tree that can be written is read
back, whatever the precedences are. -/
theorem bracket_is_read (htable : Delimited table) {e : Expr} (he : e.Every (Writable table))
    (hspells : Spells tokens (Phrase.bracket e).tokens rest) (hends : Ends table rest) :
    (expression table tokens).Accepts e rest := by
  have he' : (Phrase.bracket e).erase.Every (Writable table) := (Phrase.erase_bracket e).symm ▸ he
  have hreadable : Readable table (Phrase.bracket e) :=
    (Phrase.bracketed_bracket table e).of_erase he' fun _ hb hw => ⟨hb, hw⟩
  exact Phrase.erase_bracket e ▸ (readBack htable hreadable).expression hspells hends

end Kaleidoscope.Parser
