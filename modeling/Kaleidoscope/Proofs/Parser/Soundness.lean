import Kaleidoscope.Proofs.Parser.Steps
import Kaleidoscope.Proofs.Syntax.Phrase

/-!
# What is read was written

Whatever the parser accepts was written as a phrase of the grammar: the tokens that were taken are
those of the phrase, the tree is the one that it means, and its operators are grouped by precedence.
While operators are folded, the operand on the left binds at least as tightly as the operator that
comes next.
-/

namespace Kaleidoscope.Parser

open Phrase (Every Grammatical Grouped)

variable {table : OperatorTable} {tokens rest : List Lexeme} {e : Expr} {n : Nat}

/-- A phrase of the grammar, with operators grouped by precedence. -/
def WellFormed (table : OperatorTable) : Phrase → Prop :=
  Every fun p => Grammatical table p ∧ Grouped table p

/-- The phrase is well-formed, means the tree, and was written in the tokens before `rest`. -/
structure Writes (table : OperatorTable) (p : Phrase) (tokens : List Lexeme) (e : Expr)
    (rest : List Lexeme) : Prop where
  wellFormed : WellFormed table p
  erase : p.erase = e
  spells : Spells tokens p.tokens rest

/-- Expressions in fewer than `n` tokens were written, as far as operators went. -/
def SoundBelow (table : OperatorTable) (n : Nat) : Prop :=
  ∀ {tokens e rest}, tokens.length < n → (expression table tokens).Accepts e rest →
    ∃ p, Writes table p tokens e rest ∧ Loose table 0 rest

/-- An optional part was written behind its mark, or not at all. -/
theorem optional_sound (h : SoundBelow table n) {mark : Char} {part : Option Expr}
    (hlength : tokens.length ≤ n) (haccepts : (optional table mark tokens).Accepts part rest) :
    ∃ q : Option Phrase, (∀ p ∈ q, WellFormed table p) ∧ Phrase.erasePart q = part ∧
      Spells tokens (Phrase.partTokens mark q) rest := by
  rcases accepts_optional.1 haccepts with ⟨more, e, htakes, he, rfl⟩ | ⟨-, rfl, rfl⟩
  · obtain ⟨p, ⟨hp, rfl, hspells⟩, -⟩ := h (Nat.lt_of_lt_of_le htakes.length_lt hlength) he
    refine ⟨some p, ?_, rfl, spells_cons.2 ⟨more, htakes, hspells⟩⟩
    simpa using hp
  · exact ⟨none, by simp, rfl, spells_nil.2 rfl⟩

/-- Arguments were written with commas between them, and a closing parenthesis behind them. -/
theorem operands_sound (h : SoundBelow table n) {values : List Expr}
    (hlength : tokens.length < n) (haccepts : (operands table tokens).Accepts values rest) :
    ∃ ps : List Phrase, ps ≠ [] ∧ (∀ p ∈ ps, WellFormed table p) ∧
      Phrase.eraseArguments ps = values ∧
      Spells tokens (Phrase.argumentTokens ps ++ [.symbol ')']) rest := by
  induction hsize : tokens.length using Nat.strongRecOn generalizing tokens values with
  | ind size ih =>
    obtain ⟨value, mid, hvalue, hmore⟩ := accepts_operands.1 haccepts
    obtain ⟨p, ⟨hp, rfl, hspells⟩, -⟩ := h hlength hvalue
    rcases hmore with ⟨hclosed, rfl⟩ | ⟨more, later, hcomma, hlater, rfl⟩
    · refine ⟨[p], List.cons_ne_nil _ _, by simpa using hp, rfl, ?_⟩
      exact spells_append.2 ⟨mid, hspells, spells_singleton.2 hclosed⟩
    · have hshorter := Nat.lt_of_lt_of_le hcomma.length_lt hvalue.length_le
      obtain ⟨ps, hne, hps, rfl, hlaterSpells⟩ := ih more.length (hsize ▸ hshorter)
        (Nat.lt_trans hshorter hlength) hlater rfl
      refine ⟨p :: ps, List.cons_ne_nil _ _, List.forall_mem_cons.2 ⟨hp, hps⟩, rfl, ?_⟩
      rw [Phrase.argumentTokens_cons hne, List.append_assoc]
      exact spells_append.2 ⟨mid, hspells, spells_cons.2 ⟨more, hcomma, hlaterSpells⟩⟩

/-- Local variables were written with commas between them. -/
theorem bindings_sound (h : SoundBelow table n) {bound : List (String × Option Expr)}
    (hlength : tokens.length ≤ n) (haccepts : (bindings table tokens).Accepts bound rest) :
    ∃ bs : List (String × Option Phrase), bs ≠ [] ∧
      (∀ binding ∈ bs, ∀ p ∈ binding.2, WellFormed table p) ∧ Phrase.eraseBindings bs = bound ∧
      Spells tokens (Phrase.bindingTokens bs) rest := by
  induction hsize : tokens.length using Nat.strongRecOn generalizing tokens bound with
  | ind size ih =>
    obtain ⟨name, named, value, mid, hname, hvalue, hmore⟩ := accepts_bindings.1 haccepts
    have hnamed := Nat.le_trans (Nat.le_of_lt hname.length_lt) hlength
    obtain ⟨q, hq, rfl, hspells⟩ := optional_sound h hnamed hvalue
    rcases hmore with ⟨-, rfl, rfl⟩ | ⟨more, later, hcomma, hlater, rfl⟩
    · refine ⟨[(name, q)], List.cons_ne_nil _ _, by simpa using hq, rfl, ?_⟩
      exact spells_cons.2 ⟨named, hname, hspells⟩
    · have hshorter := Nat.lt_of_lt_of_le hcomma.length_lt
        (Nat.le_trans hvalue.length_le (Nat.le_of_lt hname.length_lt))
      obtain ⟨bs, hne, hbs, rfl, hlaterSpells⟩ := ih more.length (hsize ▸ hshorter)
        (Nat.le_trans (Nat.le_of_lt hshorter) hlength) hlater rfl
      refine ⟨(name, q) :: bs, List.cons_ne_nil _ _, List.forall_mem_cons.2 ⟨hq, hbs⟩, rfl, ?_⟩
      rw [Phrase.bindingTokens_cons hne]
      exact spells_cons.2 ⟨named, hname,
        spells_append.2 ⟨mid, hspells, spells_cons.2 ⟨more, hcomma, hlaterSpells⟩⟩⟩

/-- An expression that is no operator application was written as one. -/
theorem primary_sound (h : SoundBelow table n) (hlength : tokens.length ≤ n)
    (haccepts : (primary table tokens).Accepts e rest) :
    ∃ p, Writes table p tokens e rest ∧ p.isBinary = false := by
  cases accepts_primary.1 haccepts with
  | number htakes =>
    exact ⟨.number _, ⟨.number ⟨trivial, trivial⟩, rfl, spells_singleton.2 htakes⟩, rfl⟩
  | var htakes hopen =>
    exact ⟨.var _, ⟨.var ⟨trivial, trivial⟩, rfl, spells_singleton.2 htakes⟩, rfl⟩
  | call htakes hopen hvalues =>
    have hopened := htakes.length_lt
    have hmore := hopen.length_lt
    rcases accepts_arguments.1 hvalues with ⟨hclosed, rfl⟩ | ⟨-, hoperands⟩
    · refine ⟨.call _ [], ⟨.call ⟨trivial, trivial⟩ (by simp), rfl, ?_⟩, rfl⟩
      exact spells_cons.2 ⟨_, htakes, spells_cons.2 ⟨_, hopen, spells_singleton.2 hclosed⟩⟩
    · obtain ⟨ps, -, hps, rfl, hspells⟩ := operands_sound h (by omega) hoperands
      refine ⟨.call _ ps, ⟨.call ⟨trivial, trivial⟩ hps, rfl, ?_⟩, rfl⟩
      exact spells_cons.2 ⟨_, htakes, spells_cons.2 ⟨_, hopen, hspells⟩⟩
  | group htakes hinner hclosed =>
    have hmore := htakes.length_lt
    obtain ⟨p, ⟨hp, rfl, hspells⟩, -⟩ := h (by omega) hinner
    refine ⟨.group p, ⟨.group ⟨trivial, trivial⟩ hp, rfl, ?_⟩, rfl⟩
    exact spells_cons.2 ⟨_, htakes, spells_append.2 ⟨_, hspells, spells_singleton.2 hclosed⟩⟩
  | conditional htakes hcondition hthen hconsequent helse halternative =>
    have hmore := htakes.length_lt
    have htested := hcondition.length_le
    have hfirst := hthen.length_lt
    have hmiddle := hconsequent.length_le
    have hsecond := helse.length_lt
    obtain ⟨c, ⟨hc, rfl, hcspells⟩, -⟩ := h (by omega) hcondition
    obtain ⟨t, ⟨ht, rfl, htspells⟩, -⟩ := h (by omega) hconsequent
    obtain ⟨a, ⟨ha, rfl, haspells⟩, -⟩ := h (by omega) halternative
    refine ⟨.conditional c t a, ⟨.conditional ⟨trivial, trivial⟩ hc ht ha, rfl, ?_⟩, rfl⟩
    exact spells_cons.2 ⟨_, htakes, spells_append.2 ⟨_, hcspells, spells_cons.2 ⟨_, hthen,
      spells_append.2 ⟨_, htspells, spells_cons.2 ⟨_, helse, haspells⟩⟩⟩⟩⟩
  | loop htakes hname hequals hstart hcomma hfinish hstep hin hbody =>
    have hmore := htakes.length_lt
    have hnamed := hname.length_lt
    have hfirst := hequals.length_lt
    have hstarted := hstart.length_le
    have hsecond := hcomma.length_lt
    have hfinished := hfinish.length_le
    have hstepped := hstep.length_le
    have hthird := hin.length_lt
    obtain ⟨s, ⟨hs, rfl, hsspells⟩, -⟩ := h (by omega) hstart
    obtain ⟨f, ⟨hf, rfl, hfspells⟩, -⟩ := h (by omega) hfinish
    obtain ⟨q, hq, rfl, hqspells⟩ := optional_sound h (by omega) hstep
    obtain ⟨b, ⟨hb, rfl, hbspells⟩, -⟩ := h (by omega) hbody
    refine ⟨.loop _ s f q b, ⟨.loop ⟨trivial, trivial⟩ hs hf hq hb, rfl, ?_⟩, rfl⟩
    exact spells_cons.2 ⟨_, htakes, spells_cons.2 ⟨_, hname, spells_cons.2 ⟨_, hequals,
      spells_append.2 ⟨_, hsspells, spells_cons.2 ⟨_, hcomma, spells_append.2 ⟨_, hfspells,
      spells_append.2 ⟨_, hqspells, spells_cons.2 ⟨_, hin, hbspells⟩⟩⟩⟩⟩⟩⟩⟩
  | locals htakes hbound hin hbody =>
    have hmore := htakes.length_lt
    have hend := hbound.length_le
    have hfirst := hin.length_lt
    obtain ⟨bs, hne, hbs, rfl, hbsspells⟩ := bindings_sound h (by omega) hbound
    obtain ⟨b, ⟨hb, rfl, hbspells⟩, -⟩ := h (by omega) hbody
    refine ⟨.locals bs b, ⟨.locals ⟨hne, trivial⟩ hbs hb, rfl, ?_⟩, rfl⟩
    exact spells_cons.2 ⟨_, htakes, spells_append.2 ⟨_, hbsspells,
      spells_cons.2 ⟨_, hin, hbspells⟩⟩⟩

/-- Prefix operators were written before an operand that is no operator between two others. -/
theorem unary_sound (h : SoundBelow table n) (hlength : tokens.length ≤ n)
    (haccepts : (unary table tokens).Accepts e rest) :
    ∃ p, Writes table p tokens e rest ∧ p.isBinary = false := by
  induction hsize : tokens.length using Nat.strongRecOn generalizing tokens e with
  | ind size ih =>
    rcases accepts_unary.1 haccepts with ⟨c, more, operand, htakes, hc, hoperand, rfl⟩ | ⟨-, hprimary⟩
    · obtain ⟨p, ⟨hp, rfl, hspells⟩, hbinary⟩ := ih more.length (hsize ▸ htakes.length_lt)
        (Nat.le_trans (Nat.le_of_lt htakes.length_lt) hlength) hoperand rfl
      refine ⟨.unary c p, ⟨.unary ⟨⟨hc, hbinary⟩, trivial⟩ hp, rfl, ?_⟩, rfl⟩
      exact spells_cons.2 ⟨more, htakes, hspells⟩
    · exact primary_sound h hlength hprimary

/-- Operators that are folded were written behind the operand on the left. The operand binds at
least as tightly as the operator that comes next, and what comes of it binds at least as tightly as
the weakest operator that may be folded, unless it is the operand itself. -/
theorem fold_sound (h : SoundBelow table n) {weakest : Nat} {left : Phrase}
    (hlength : tokens.length ≤ n) (hleft : WellFormed table left)
    (htight : ∀ precedence, left.precedence? table = some precedence →
      Loose table (precedence + 1) tokens)
    (haccepts : (fold table weakest left.erase tokens).Accepts e rest) :
    ∃ p later, WellFormed table p ∧ p.erase = e ∧ p.tokens = left.tokens ++ later ∧
      Spells tokens later rest ∧ Loose table weakest rest ∧
      ∀ precedence, p.precedence? table = some precedence →
        weakest ≤ precedence ∨ left.precedence? table = some precedence := by
  induction hsize : tokens.length using Nat.strongRecOn generalizing tokens left weakest e rest with
  | ind size ih =>
    rcases accepts_fold.1 haccepts with ⟨hloose, rfl, rfl⟩ |
      ⟨c, precedence, more, operand, mid, right, mid', htakes, hlookup, hle, hoperand, hright, hfold⟩
    · exact ⟨left, [], hleft, rfl, (List.append_nil _).symm, spells_nil.2 rfl, hloose,
        fun _ => .inr⟩
    · have hmore := htakes.length_lt
      have hmid := hoperand.length_le
      have hmid' := hright.length_le
      obtain ⟨o, ⟨ho, rfl, hospells⟩, hbinary⟩ := unary_sound h (by omega) hoperand
      have honone := Phrase.precedence?_eq_none table hbinary
      obtain ⟨r, later, hr, rfl, hrtokens, hrspells, hrloose, hrtight⟩ :=
        ih mid.length (by omega) (by omega) ho (by simp [honone]) hright rfl
      have hnode : Grammatical table (.binary c left r) ∧ Grouped table (.binary c left r) := by
        refine ⟨by rw [Grammatical, hlookup]; rfl, fun p hp => ?_⟩
        obtain rfl : precedence = p := Option.some.inj (hlookup.symm.trans hp)
        refine ⟨fun q hq => Nat.le_of_lt_succ (htight q hq c precedence more htakes hlookup),
          fun q hq => ?_⟩
        rcases hrtight q hq with hq | hq
        · exact hq
        · rw [honone] at hq
          cases hq
      have hnext (q : Nat) (hq : (Phrase.binary c left r).precedence? table = some q) :
          q = precedence := Option.some.inj (hq.symm.trans hlookup)
      obtain ⟨p, later', hp, rfl, hptokens, hpspells, hploose, hptight⟩ :=
        ih mid'.length (by omega) (by omega) (.binary hnode hleft hr)
          (fun q hq => hnext q hq ▸ hrloose) hfold rfl
      refine ⟨p, .symbol c :: (r.tokens ++ later'), hp, rfl, ?_, ?_, hploose, fun q hq => ?_⟩
      · rw [hptokens, Phrase.tokens, List.append_assoc, List.cons_append]
      · rw [hrtokens, List.append_assoc]
        exact spells_cons.2 ⟨more, htakes, spells_append.2 ⟨mid, hospells,
          spells_append.2 ⟨mid', hrspells, hpspells⟩⟩⟩
      · rcases hptight q hq with hq | hq
        · exact .inl hq
        · exact .inl (hnext q hq ▸ hle)

/-- Expressions were written, however long they are. -/
theorem soundBelow (table : OperatorTable) (n : Nat) : SoundBelow table n := by
  induction n with
  | zero => exact fun hlength => (Nat.not_lt_zero _ hlength).elim
  | succ n ih =>
    intro tokens e rest hlength haccepts
    have hle := Nat.le_of_lt_succ hlength
    obtain ⟨left, mid, hleft, hfold⟩ := accepts_expression.1 haccepts
    obtain ⟨o, ⟨ho, rfl, hospells⟩, hbinary⟩ := unary_sound ih hle hleft
    have honone := Phrase.precedence?_eq_none table hbinary
    obtain ⟨p, later, hp, rfl, hptokens, hpspells, hloose, -⟩ :=
      fold_sound ih (Nat.le_trans hleft.length_le hle) ho (by simp [honone]) hfold
    refine ⟨p, ⟨hp, rfl, ?_⟩, hloose⟩
    rw [hptokens]
    exact spells_append.2 ⟨mid, hospells, hpspells⟩

/-- Whatever is read was written: the tokens that were taken are those of a phrase of the grammar,
the tree is the one that the phrase means, its operators are grouped by precedence, and no operator
of the table follows. -/
theorem expression_was_written (h : (expression table tokens).Accepts e rest) :
    ∃ p : Phrase, p.Every (Grammatical table) ∧ p.Every (Grouped table) ∧ p.erase = e ∧
      Spells tokens p.tokens rest ∧
      ∀ c more, Takes (.symbol c) rest more → table.lookup c = none := by
  obtain ⟨p, ⟨hp, herase, hspells⟩, hloose⟩ := soundBelow table _ (Nat.lt_succ_self _) h
  refine ⟨p, hp.mono fun _ h => h.1, hp.mono fun _ h => h.2, herase, hspells,
    fun c more htakes => ?_⟩
  cases hlookup : table.lookup c with
  | none => rfl
  | some precedence => exact (Nat.not_lt_zero _ (hloose c precedence more htakes hlookup)).elim

/-- In `a + b * c;` a sum is written, and a product on its right. -/
theorem sum_was_written :
    (expression .seed [⟨.identifier "a", ⟨0, 1⟩⟩, ⟨.symbol '+', ⟨1, 2⟩⟩,
        ⟨.identifier "b", ⟨2, 3⟩⟩, ⟨.symbol '*', ⟨3, 4⟩⟩, ⟨.identifier "c", ⟨4, 5⟩⟩,
        ⟨.symbol ';', ⟨5, 6⟩⟩]).Accepts
      (.binary '+' (.var "a") (.binary '*' (.var "b") (.var "c"))) [⟨.symbol ';', ⟨5, 6⟩⟩] ∧
    ∃ p : Phrase, p.Every (Grammatical .seed) ∧ p.Every (Grouped .seed) ∧
      p.erase = .binary '+' (.var "a") (.binary '*' (.var "b") (.var "c")) ∧
      Spells [⟨.identifier "a", ⟨0, 1⟩⟩, ⟨.symbol '+', ⟨1, 2⟩⟩, ⟨.identifier "b", ⟨2, 3⟩⟩,
        ⟨.symbol '*', ⟨3, 4⟩⟩, ⟨.identifier "c", ⟨4, 5⟩⟩, ⟨.symbol ';', ⟨5, 6⟩⟩] p.tokens
        [⟨.symbol ';', ⟨5, 6⟩⟩] ∧
      ∀ c more, Takes (.symbol c) [⟨.symbol ';', ⟨5, 6⟩⟩] more →
        OperatorTable.seed.lookup c = none := by
  have h : (expression .seed [⟨.identifier "a", ⟨0, 1⟩⟩, ⟨.symbol '+', ⟨1, 2⟩⟩,
      ⟨.identifier "b", ⟨2, 3⟩⟩, ⟨.symbol '*', ⟨3, 4⟩⟩, ⟨.identifier "c", ⟨4, 5⟩⟩,
      ⟨.symbol ';', ⟨5, 6⟩⟩]).Accepts
      (.binary '+' (.var "a") (.binary '*' (.var "b") (.var "c"))) [⟨.symbol ';', ⟨5, 6⟩⟩] := by
    simp [expression, fold, tighter, unary, primary, Token.operator?, Reading.accepts_past,
      Reading.accepts_andThen, Reading.accepts_done, and_assoc, OperatorTable.seed,
      OperatorTable.builtins, OperatorTable.lookup, Dictionary.lookup, Dictionary.lookupIn]
  exact ⟨h, expression_was_written h⟩

/-- The operators between operands in a tree that is read are operators of the table. -/
theorem knows_of_accepts (h : (expression table tokens).Accepts e rest) :
    e.Every (Expr.Knows table) := by
  obtain ⟨p, ⟨hp, rfl, -⟩, -⟩ := soundBelow table _ (Nat.lt_succ_self _) h
  refine Every.erase hp fun p hgrammatical hgroup => ?_
  cases p with
  | binary => exact hgrammatical.1
  | group => cases hgroup
  | _ => trivial

end Kaleidoscope.Parser
