import Kaleidoscope.Proofs.Parser.Lookahead
import Kaleidoscope.Proofs.Token.Slices

/-!
# Errors stand at the first wrong token

What a reader has taken before it rejects a token can always be continued to something that it
accepts: every construct that is still open can be closed, and every operand that is still missing
can be a name. So the token at which an expression is rejected is the first one that is wrong.
-/

namespace Kaleidoscope

/-- Some text has the token, and no other. -/
def Spellable (token : Token) : Prop :=
  ∃ text, (Lexer.scan 0 text).map Lexeme.token = [token]

namespace Reader

variable {α β : Type} {n m : Nat} {F G E D : List Lexeme → Prop} {written : List Token}

/-- What is written can be continued so that the reader accepts it, in front of whatever has the
property `F`. If nothing is written yet, the continuation has the property `E`. -/
def Continues (F E : List Lexeme → Prop) (f : Reader α) (written : List Token) : Prop :=
  ∃ (continuation : List Token) (a : α), (∀ token ∈ continuation, Spellable token) ∧
    ∀ {tokens rest}, Spells tokens (written ++ continuation) rest → F rest →
      (f tokens).Accepts a rest ∧ (written = [] → E tokens)

/-- A continuation serves in front of less, and more may be allowed of it. -/
theorem Continues.mono {f : Reader α} (h : Continues F E f written) (hF : ∀ tokens, G tokens → F tokens)
    (hE : ∀ tokens, E tokens → D tokens) : Continues G D f written := by
  obtain ⟨continuation, a, hspellable, haccepts⟩ := h
  refine ⟨continuation, a, hspellable, fun hspells hrest => ?_⟩
  obtain ⟨ha, hbegins⟩ := haccepts hspells (hF _ hrest)
  exact ⟨ha, fun hnil => hE _ (hbegins hnil)⟩

/-- What takes nothing is continued by nothing. -/
theorem continues_done (a : α) (h : ∀ tokens, F tokens → E tokens) :
    Continues F E (Reading.done a) [] := by
  refine ⟨[], a, nofun, fun hspells hrest => ?_⟩
  obtain rfl := spells_nil.1 hspells
  exact ⟨Reading.accepts_done.2 ⟨rfl, rfl⟩, fun _ => h _ hrest⟩

/-- Behind a continuation of the first reader, the second one can be continued. -/
theorem Continues.andThen {f : Reader α} {g : α → Reader β} (hf : Continues F E f written)
    (hg : ∀ a, Continues G F (g a) []) : Continues G E (f.andThen g) written := by
  obtain ⟨continuation, a, hspellable, haccepts⟩ := hf
  obtain ⟨continuation', b, hspellable', haccepts'⟩ := hg a
  refine ⟨continuation ++ continuation', b, List.forall_mem_append.2 ⟨hspellable, hspellable'⟩,
    fun hspells hrest => ?_⟩
  obtain ⟨mid, hfirst, hsecond⟩ := spells_append.1 ((List.append_assoc ..).symm ▸ hspells)
  obtain ⟨hb, hmid⟩ := haccepts' hsecond hrest
  obtain ⟨ha, hbegins⟩ := haccepts hfirst (hmid rfl)
  exact ⟨accepts_andThen.2 ⟨a, mid, ha, hb⟩, hbegins⟩

/-- Where the first reader has accepted, what the second one has taken can be continued. -/
theorem continues_andThen {f : Reader α} {g : α → Reader β} {a : α} {tokens mid rest : List Lexeme}
    {written' : List Token} (hpeeks : Peeks n F f) (hlength : tokens.length < n)
    (ha : (f tokens).Accepts a mid) (hspells : Spells tokens written mid)
    (hspells' : Spells mid written' rest) (hg : Continues G F (g a) written')
    (h : Strict f ∨ ∀ tokens, F tokens → E tokens) :
    Continues G E (f.andThen g) (written ++ written') := by
  obtain ⟨continuation, b, hspellable, haccepts⟩ := hg
  refine ⟨continuation, b, hspellable, fun {tokens' rest'} hwhole hrest => ?_⟩
  obtain ⟨mid', hfirst, hsecond⟩ := spells_append.1 (List.append_assoc .. ▸ hwhole)
  obtain ⟨hb, hmid⟩ := haccepts hsecond hrest
  have hnext : SameNext mid mid' ∨ F mid' := by
    cases written' with
    | nil => exact .inr (hmid rfl)
    | cons token later =>
      obtain ⟨more, ⟨span, rfl⟩, -⟩ := spells_cons.1 hspells'
      obtain ⟨more', ⟨span', rfl⟩, -⟩ := spells_cons.1 hsecond
      exact .inl (sameNext_cons rfl more more')
  refine ⟨accepts_andThen.2 ⟨a, mid', ?_, hb⟩, fun hnil => ?_⟩
  · exact hpeeks.accepts hlength ha ⟨written, hspells, hfirst⟩ hnext
  · obtain ⟨rfl, rfl⟩ := List.append_eq_nil_iff.1 hnil
    rcases h with hstrict | hFE
    · have hlt := hstrict ha
      rw [spells_nil.1 hspells] at hlt
      exact absurd hlt (Nat.lt_irrefl _)
    · rw [spells_nil.1 hfirst]
      exact hFE _ (hmid rfl)

section

variable {told : Token → Option (Reader α)} {otherwise f : Reader α} {token : Token}

/-- What is written behind a token that tells how to go on is continued as the token tells. -/
theorem continues_told (h : told token = some f) (hf : Continues F D f written) :
    Continues F E (choose told otherwise) (token :: written) := by
  obtain ⟨continuation, a, hspellable, haccepts⟩ := hf
  refine ⟨continuation, a, hspellable, fun hspells hrest => ?_⟩
  obtain ⟨more, ⟨span, rfl⟩, hmore⟩ := spells_cons.1 hspells
  rw [choose_cons_of_some h]
  exact ⟨Reading.accepts_past.2 (haccepts hmore hrest).1, nofun⟩

/-- A continuation may begin with a token that tells how to go on. -/
theorem continues_choose_told (h : told token = some f) (htoken : Spellable token)
    (hE : ∀ {tokens more}, Takes token tokens more → E tokens) (hf : Continues F D f []) :
    Continues F E (choose told otherwise) [] := by
  obtain ⟨continuation, a, hspellable, haccepts⟩ := hf
  refine ⟨token :: continuation, a, List.forall_mem_cons.2 ⟨htoken, hspellable⟩,
    fun hspells hrest => ?_⟩
  obtain ⟨more, htakes, hmore⟩ := spells_cons.1 hspells
  refine ⟨?_, fun _ => hE htakes⟩
  obtain ⟨span, rfl⟩ := htakes
  rw [choose_cons_of_some h]
  exact Reading.accepts_past.2 (haccepts hmore hrest).1

/-- What is written can be continued otherwise, as long as its first token does not tell how to go
on. -/
theorem continues_otherwise (h : Continues F E otherwise written)
    (hwritten : ∀ token ∈ written.head?, told token = none)
    (hE : ∀ tokens, E tokens → ∀ first ∈ tokens.head?, told first.token = none) :
    Continues F E (choose told otherwise) written := by
  obtain ⟨continuation, a, hspellable, haccepts⟩ := h
  refine ⟨continuation, a, hspellable, fun hspells hrest => ?_⟩
  obtain ⟨ha, hbegins⟩ := haccepts hspells hrest
  rw [choose_of_none]
  · exact ⟨ha, hbegins⟩
  · cases written with
    | nil => exact hE _ (hbegins rfl)
    | cons token later =>
      obtain ⟨more, ⟨span, rfl⟩, -⟩ := spells_cons.1 hspells
      rintro _ ⟨⟩
      exact hwritten token rfl

end

/-- Whatever the reader rejects with fewer than `n` tokens, what it has taken by then can be
continued, and the token that comes next is reported. From nothing at all it can be continued as
well. -/
structure Viable (n : Nat) (F E : List Lexeme → Prop) (f : Reader α) : Prop where
  starts : Continues F E f []
  continues : ∀ {tokens rest : List Lexeme} {written : List Token} {error : ParseError},
    tokens.length < n → (f tokens).Rejects error rest → Spells tokens written rest →
    (∃ expected, error = .unexpected expected (rest.head?.map Lexeme.token)) ∧
      Continues F E f written

/-- Without tokens, only a continuation from nothing at all is asked for. -/
theorem viable_zero {f : Reader α} (h : Continues F E f []) : Viable 0 F E f :=
  ⟨h, fun hlength => (Nat.not_lt_zero _ hlength).elim⟩

/-- A viable reader is viable on fewer tokens, in front of less, with more allowed of the
continuation. -/
theorem Viable.mono {f : Reader α} (h : Viable n F E f) (hle : m ≤ n)
    (hF : ∀ tokens, G tokens → F tokens) (hE : ∀ tokens, E tokens → D tokens) : Viable m G D f where
  starts := h.starts.mono hF hE
  continues hlength hrejects hspells :=
    (h.continues (Nat.lt_of_lt_of_le hlength hle) hrejects hspells).imp_right fun h => h.mono hF hE

/-- Nothing need be said of the continuation from nothing at all. -/
theorem Viable.any {f : Reader α} (h : Viable n F E f) : Viable n F (fun _ => True) f :=
  h.mono (Nat.le_refl n) (fun _ => id) fun _ _ => trivial

/-- What takes nothing is viable. -/
theorem viable_done (a : α) (h : ∀ tokens, F tokens → E tokens) : Viable n F E (Reading.done a) where
  starts := continues_done a h
  continues _ hrejects := (Reading.rejects_done.1 hrejects).elim

/-- Two viable readers make a viable one, if the first one peeks and takes a token or may be
continued by nothing. -/
theorem Viable.andThen {f : Reader α} {g : α → Reader β} (hf : Viable n F E f) (hpeeks : Peeks n F f)
    (hg : ∀ a, Viable n G F (g a)) (h : Strict f ∨ ∀ tokens, F tokens → E tokens) :
    Viable n G E (f.andThen g) where
  starts := hf.starts.andThen fun a => (hg a).starts
  continues := by
    intro tokens rest written error hlength hrejects hspells
    rcases rejects_andThen.1 hrejects with hfirst | ⟨a, mid, ha, hsecond⟩
    · obtain ⟨hexpected, hcontinues⟩ := hf.continues hlength hfirst hspells
      exact ⟨hexpected, hcontinues.andThen fun a => (hg a).starts⟩
    · obtain ⟨taken, later, rfl, htaken, hlater⟩ := hspells.split ha.suffix hsecond.suffix
      have hmid := Nat.lt_of_le_of_lt ha.length_le hlength
      obtain ⟨hexpected, hcontinues⟩ := (hg a).continues hmid hsecond hlater
      exact ⟨hexpected, continues_andThen hpeeks hlength ha htaken hlater hcontinues h⟩

section

variable {told : Token → Option (Reader α)} {otherwise f : Reader α}

/-- What is rejected behind a token that tells how to go on can be continued as the token tells. -/
theorem continues_of_told (hle : m ≤ n + 1)
    (htold : ∀ token f, told token = some f → Viable n F (fun _ => True) f) {first : Lexeme}
    {more rest : List Lexeme} {error : ParseError} (h : told first.token = some f)
    (hlength : (first :: more).length < m) (hspells : Spells (first :: more) written rest)
    (hrejects : (choose told otherwise (first :: more)).Rejects error rest) :
    (∃ expected, error = .unexpected expected (rest.head?.map Lexeme.token)) ∧
      Continues F E (choose told otherwise) written := by
  rw [choose_cons_of_some h, Reading.rejects_past] at hrejects
  obtain ⟨taken, rfl⟩ := hrejects.suffix
  rw [List.length_cons] at hlength
  obtain ⟨hexpected, hcontinues⟩ :=
    (htold _ f h).continues (by omega) hrejects (spells_of_append taken rest)
  refine ⟨hexpected, ?_⟩
  rw [hspells.unique (spells_of_append (first :: taken) rest)]
  exact continues_told h hcontinues

/-- A choice is viable if each way to go on is, and the continuation of the alternative does not
begin with a token that tells another way. -/
theorem viable_choose (hle : m ≤ n + 1)
    (htold : ∀ token f, told token = some f → Viable n F (fun _ => True) f)
    (hotherwise : Viable m F E otherwise)
    (hE : ∀ tokens, E tokens → ∀ first ∈ tokens.head?, told first.token = none) :
    Viable m F E (choose told otherwise) where
  starts := continues_otherwise hotherwise.starts nofun hE
  continues := by
    intro tokens rest written error hlength hrejects hspells
    rcases told_or_not told tokens with ⟨first, more, f, rfl, hf⟩ | hnone
    · exact continues_of_told hle htold hf hlength hspells hrejects
    · rw [choose_of_none hnone] at hrejects
      obtain ⟨hexpected, hcontinues⟩ := hotherwise.continues hlength hrejects hspells
      refine ⟨hexpected, continues_otherwise hcontinues (fun token htoken => ?_) hE⟩
      obtain ⟨later, rfl⟩ := List.head?_eq_some_iff.1 htoken
      obtain ⟨more, ⟨span, rfl⟩, -⟩ := spells_cons.1 hspells
      exact hnone _ rfl

/-- A token that does not tell how to go on is rejected, and one that does can stand in its
place. -/
theorem viable_choose_unexpected (hle : m ≤ n + 1)
    (htold : ∀ token f, told token = some f → Viable n F (fun _ => True) f) {construct : Construct}
    {token : Token} (h : told token = some f) (htoken : Spellable token)
    (hE : ∀ {tokens more}, Takes token tokens more → E tokens) :
    Viable m F E (choose told (Reading.unexpected construct)) where
  starts := continues_choose_told h htoken hE (htold token f h).starts
  continues := by
    intro tokens rest written error hlength hrejects hspells
    rcases told_or_not told tokens with ⟨first, more, f, rfl, hf⟩ | hnone
    · exact continues_of_told hle htold hf hlength hspells hrejects
    · rw [choose_of_none hnone, Reading.unexpected] at hrejects
      obtain ⟨rfl, rfl⟩ := Reading.rejects_fail.1 hrejects
      obtain rfl := hspells.unique (spells_nil.2 rfl)
      exact ⟨⟨construct, rfl⟩, continues_choose_told h htoken hE (htold token f h).starts⟩

/-- A reader behind a token that has to come is viable if the token can be written. -/
theorem viable_expect {wanted : Token} {construct : Construct} (hle : m ≤ n + 1)
    (hwanted : Spellable wanted) (hE : ∀ {tokens more}, Takes wanted tokens more → E tokens)
    (hf : Viable n F (fun _ => True) f) : Viable m F E (expect wanted construct f) :=
  viable_choose_unexpected hle (fun _ _ heq => (only_eq_some heq).2 ▸ hf) (if_pos rfl) hwanted hE

end

end Reader

/-- An identifier can be written. -/
theorem spellable_name : Spellable (.identifier "x") :=
  ⟨['x'], by decide +kernel⟩

/-- Every reserved word can be written. -/
theorem spellable_keyword (word : Keyword) : Spellable (.keyword word) :=
  ⟨word.spelling.toList, by cases word <;> decide +kernel⟩

/-- A closing parenthesis can be written. -/
theorem spellable_close : Spellable (.symbol ')') :=
  ⟨[')'], by decide +kernel⟩

/-- A comma can be written. -/
theorem spellable_comma : Spellable (.symbol ',') :=
  ⟨[','], by decide +kernel⟩

/-- An equals sign can be written. -/
theorem spellable_equals : Spellable (.symbol '=') :=
  ⟨['='], by decide +kernel⟩

namespace Parser

open Reader (Continues Viable continues_done continues_choose_told continues_otherwise viable_done
  viable_choose viable_choose_unexpected viable_expect viable_zero)

variable {table : OperatorTable} {n : Nat}

/-- An identifier comes next. -/
def AtName (tokens : List Lexeme) : Prop := ∃ name more, Takes (.identifier name) tokens more

/-- The next token is an identifier. -/
theorem AtName.head {tokens : List Lexeme} (h : AtName tokens) :
    ∀ first ∈ tokens.head?, ∃ name, first.token = .identifier name := by
  obtain ⟨name, more, span, rfl⟩ := h
  rintro _ ⟨⟩
  exact ⟨name, rfl⟩

/-- One token alone does not tell how to go on where it does not come next. -/
theorem only_eq_none {α : Type} {wanted : Token} {f : Reader α} {tokens : List Lexeme}
    (h : ∀ more, ¬ Takes wanted tokens more) :
    ∀ first ∈ tokens.head?, Reader.only wanted f first.token = none := by
  intro first hfirst
  refine if_neg fun heq => ?_
  obtain ⟨more, rfl⟩ := List.head?_eq_some_iff.1 hfirst
  exact h more (heq ▸ takes_cons first more)

/-- A name behind which no parenthesis opens is a variable. -/
theorem starts_var (name : String) (f : Reader Expr) :
    Continues (Ends table) (Ends table)
      (Reader.choose (Reader.only (.symbol '(') f) (Reading.done (.var name))) [] :=
  continues_otherwise (continues_done _ fun _ => id) nofun fun _ h => only_eq_none h.1

/-- An expression that is no operator application can be begun with an identifier. -/
theorem starts_primary (table : OperatorTable) :
    Continues (Ends table) AtName (primary table) [] := by
  rw [primary_eq]
  exact continues_choose_told (show primaryBehind table (.identifier "x") = some _ from rfl)
    spellable_name (fun h => ⟨"x", _, h⟩) (starts_var "x" _)

/-- An identifier is no prefix operator. -/
theorem unaryBehind_of_atName {tokens : List Lexeme} (h : AtName tokens) :
    ∀ first ∈ tokens.head?, unaryBehind table first.token = none := by
  intro first hfirst
  obtain ⟨name, hname⟩ := h.head first hfirst
  rw [unaryBehind, hname]
  rfl

/-- An operand can be begun with an identifier. -/
theorem starts_unary (table : OperatorTable) : Continues (Ends table) AtName (unary table) [] := by
  rw [unary_eq]
  exact continues_otherwise (starts_primary table) nofun fun _ => unaryBehind_of_atName

/-- No operator need follow an operand. -/
theorem starts_fold (table : OperatorTable) (weakest : Nat) (left : Expr) :
    Continues (Ends table) (Ends table) (fold table weakest left) [] := by
  rw [fold_eq]
  exact continues_otherwise (continues_done left fun _ => id) nofun fun _ => foldBehind_of_ends

/-- An expression can be begun with an identifier. -/
theorem starts_expression (table : OperatorTable) :
    Continues (Ends table) AtName (expression table) [] := by
  rw [expression_eq]
  exact (starts_unary table).andThen (starts_fold table 0)

/-- Arguments can be begun with an identifier. -/
theorem starts_operands (htable : Delimited table) :
    Continues (fun _ => True) AtName (operands table) [] := by
  rw [operands_eq]
  refine (starts_expression table).andThen fun operand => ?_
  exact continues_choose_told (if_pos rfl) spellable_close
    (fun h => htable.ends (by decide) (by decide) h) (continues_done (E := fun _ => True) _ fun _ => id)

/-- An optional part need not come. -/
theorem starts_optional (table : OperatorTable) (mark : Char) :
    Continues AtKeyword AtKeyword (optional table mark) [] := by
  rw [optional_eq]
  exact continues_otherwise (continues_done none fun _ => id) nofun fun _ h =>
    only_eq_none (h.not_takes mark)

/-- Local variables can be written from nothing at all. -/
theorem starts_bindings (table : OperatorTable) :
    Continues AtKeyword (fun _ => True) (bindings table) [] := by
  rw [bindings_eq]
  refine continues_choose_told (D := AtKeyword)
    (show Reader.named _ (.identifier "x") = some _ from rfl) spellable_name (fun _ => trivial) ?_
  refine (starts_optional table '=').andThen fun value => ?_
  exact continues_otherwise (continues_done _ fun _ => id) nofun fun _ h =>
    only_eq_none (h.not_takes ',')

/-- The readers of expressions reject the first wrong token, as far as fewer than `n` tokens
show. -/
structure ViableBelow (table : OperatorTable) (n : Nat) : Prop where
  expression : Viable n (Ends table) AtName (expression table)
  unary : Viable n (Ends table) AtName (unary table)
  fold : ∀ weakest left, Viable n (Ends table) (Ends table) (fold table weakest left)
  operands : Viable n (fun _ => True) AtName (operands table)
  bindings : Viable n AtKeyword (fun _ => True) (bindings table)

section

variable {α : Type} {G : List Lexeme → Prop}

/-- What follows an expression has to end it. -/
theorem ViableBelow.behind {g : Expr → Reader α} (h : ViableBelow table n)
    (hg : ∀ e, Viable n G (Ends table) (g e)) :
    Viable n G (fun _ => True) (.andThen (Parser.expression table) g) :=
  (h.expression.andThen (peeksBelow table n).expression hg (.inl (strict_expression table))).any

end

/-- Optional parts are viable. -/
theorem viable_optional (h : ViableBelow table n) (mark : Char) :
    Viable n AtKeyword AtKeyword (optional table mark) := by
  rw [optional_eq]
  refine viable_choose (Nat.le_succ n) (fun token f heq => ?_) (viable_done none fun _ => id)
    fun _ h => only_eq_none (h.not_takes mark)
  obtain ⟨-, rfl⟩ := Reader.only_eq_some heq
  exact h.behind fun e => viable_done _ fun _ => AtKeyword.ends

/-- Arguments are viable. -/
theorem viable_arguments (h : ViableBelow table n) :
    Viable n (fun _ => True) (fun _ => True) (arguments table) := by
  rw [arguments_eq]
  refine (viable_choose (Nat.le_succ n) (fun token f heq => ?_) h.operands fun tokens htokens => ?_).any
  · obtain ⟨-, rfl⟩ := Reader.only_eq_some heq
    exact viable_done _ fun _ => id
  · obtain ⟨name, more, htakes⟩ := htokens
    exact only_eq_none fun more' => htakes.not_takes (by simp) more'

/-- What follows the first token of an expression that is no operator application is viable. -/
theorem viable_primaryBehind (htable : Delimited table) (h : ViableBelow table n) {token : Token}
    {f : Reader Expr} (heq : primaryBehind table token = some f) :
    Viable n (Ends table) (fun _ => True) f := by
  have hdone (e : Expr) : Viable n (Ends table) (Ends table) (Reading.done e) :=
    viable_done e fun _ => id
  have hkeyword {E : List Lexeme → Prop} {word : Keyword} {construct : Construct} {f : Reader Expr}
      (hE : ∀ {tokens more}, Takes (.keyword word) tokens more → E tokens)
      (hf : Viable n (Ends table) (fun _ => True) f) :
      Viable n (Ends table) E (.expect (.keyword word) construct f) :=
    viable_expect (Nat.le_succ n) (spellable_keyword word) hE hf
  unfold primaryBehind at heq
  split at heq
  · cases heq
    exact (hdone _).any
  · cases heq
    refine (viable_choose (Nat.le_succ n) (fun token f heq => ?_) (hdone _) fun _ h =>
      only_eq_none h.1).any
    obtain ⟨-, rfl⟩ := Reader.only_eq_some heq
    exact (viable_arguments h).andThen (peeks_arguments (peeksBelow table n))
      (fun _ => viable_done _ fun _ _ => trivial) (.inr fun _ => id)
  · cases heq
    refine h.behind fun inner => viable_expect (Nat.le_succ n) spellable_close ?_ (hdone inner).any
    exact fun h => htable.ends (by decide) (by decide) h
  · cases heq
    refine h.behind fun condition => hkeyword ends_of_keyword ?_
    refine h.behind fun consequent => hkeyword ends_of_keyword ?_
    exact h.behind fun alternative => hdone _
  · cases heq
    refine viable_choose_unexpected (Nat.le_succ n) (fun token f heq => ?_)
      (show Reader.named _ (.identifier "x") = some _ from rfl) spellable_name fun _ => trivial
    obtain ⟨name, -, rfl⟩ := Reader.named_eq_some heq
    refine viable_expect (Nat.le_succ n) spellable_equals (fun _ => trivial) ?_
    refine h.behind fun start => viable_expect (Nat.le_succ n) spellable_comma ?_ ?_
    · exact fun h => htable.ends (by decide) (by decide) h
    refine h.behind fun finish => ?_
    refine ((viable_optional h ',').andThen
      ((peeks_optional (peeksBelow table n) ',').mono (Nat.le_succ n) fun _ => id)
      (fun step => hkeyword (fun h => ?_) ?_) (.inr fun _ => id)).mono (Nat.le_refl n) (fun _ => id)
        fun _ => AtKeyword.ends
    · obtain ⟨span, rfl⟩ := h
      rintro _ ⟨⟩
      exact ⟨_, rfl⟩
    · exact h.behind fun body => hdone _
  · cases heq
    refine h.bindings.andThen (peeksBelow table n).bindings (fun bound => hkeyword (fun h => ?_) ?_)
      (.inr fun _ _ => trivial)
    · obtain ⟨span, rfl⟩ := h
      rintro _ ⟨⟩
      exact ⟨_, rfl⟩
    · exact h.behind fun body => hdone _
  · cases heq

/-- Expressions that are no operator applications are viable. -/
theorem viable_primary (htable : Delimited table) (h : ViableBelow table n) :
    Viable (n + 1) (Ends table) AtName (primary table) := by
  rw [primary_eq]
  exact viable_choose_unexpected (Nat.le_refl _) (fun _ _ heq => viable_primaryBehind htable h heq)
    (show primaryBehind table (.identifier "x") = some _ from rfl) spellable_name
    fun h => ⟨"x", _, h⟩

/-- Operands are viable. -/
theorem viable_unary (htable : Delimited table) (h : ViableBelow table n) :
    Viable (n + 1) (Ends table) AtName (unary table) := by
  rw [unary_eq]
  refine viable_choose (Nat.le_refl _) (fun token f heq => ?_) (viable_primary htable h)
    fun _ => unaryBehind_of_atName
  obtain ⟨operator, -, rfl⟩ := Option.map_eq_some_iff.1 heq
  exact (h.unary.andThen (peeksBelow table n).unary (fun operand => viable_done _ fun _ => id)
    (.inl (strict_unary table))).any

/-- Operators with their right operands are viable. -/
theorem viable_fold (h : ViableBelow table n) (weakest : Nat) (left : Expr) :
    Viable (n + 1) (Ends table) (Ends table) (fold table weakest left) := by
  rw [fold_eq]
  refine viable_choose (Nat.le_refl _) (fun token f heq => ?_) (viable_done left fun _ => id)
    fun _ => foldBehind_of_ends
  unfold foldBehind at heq
  split at heq
  · split at heq
    · cases heq
    · split at heq
      · cases heq
      · cases heq
        refine (h.unary.andThen (peeksBelow table n).unary (fun operand => ?_)
          (.inl (strict_unary table))).any
        exact (h.fold _ operand).andThen ((peeksBelow table n).fold _ operand) (fun right => h.fold _ _)
          (.inr fun _ => id)
  · cases heq

/-- Arguments in front of their closing parenthesis are viable. -/
theorem viable_operands (htable : Delimited table) (h : ViableBelow table n)
    (hexpression : Viable (n + 1) (Ends table) AtName (expression table)) :
    Viable (n + 1) (fun _ => True) AtName (operands table) := by
  rw [operands_eq]
  refine hexpression.andThen (peeksBelow table (n + 1)).expression (fun operand => ?_)
    (.inl (strict_expression table))
  -- Without a closing parenthesis the list goes on with a comma, which is no parenthesis.
  have hcomma : Viable (n + 1) (fun _ => True) (fun tokens => ∃ more, Takes (.symbol ',') tokens more)
      (.expect (.symbol ',') .argumentEnd <|
        .andThen (operands table) fun later => Reading.done (operand :: later)) := by
    refine viable_expect (Nat.le_refl _) spellable_comma (fun h => ⟨_, h⟩) ?_
    exact (h.operands.andThen (peeksBelow table n).operands (fun later => viable_done _ fun _ => id)
      (.inl (strict_operands table))).any
  refine (viable_choose (Nat.le_succ _) (fun token f heq => ?_) hcomma ?_).mono (Nat.le_refl _)
    (fun _ => id) ?_
  · obtain ⟨-, rfl⟩ := Reader.only_eq_some heq
    exact viable_done _ fun _ => id
  · rintro tokens ⟨more, htakes⟩
    exact only_eq_none fun more' => htakes.not_takes (by simp) more'
  · rintro tokens ⟨more, htakes⟩
    exact htable.ends (by decide) (by decide) htakes

/-- Local variables are viable. -/
theorem viable_bindings (h : ViableBelow table n) :
    Viable (n + 1) AtKeyword (fun _ => True) (bindings table) := by
  rw [bindings_eq]
  refine viable_choose_unexpected (Nat.le_refl _) (fun token f heq => ?_)
    (show Reader.named _ (.identifier "x") = some _ from rfl) spellable_name fun _ => trivial
  obtain ⟨name, -, rfl⟩ := Reader.named_eq_some heq
  refine ((viable_optional h '=').andThen
    ((peeks_optional (peeksBelow table n) '=').mono (Nat.le_succ n) fun _ => id) (fun value => ?_)
    (.inr fun _ => id)).any
  refine viable_choose (Nat.le_succ n) (fun token f heq => ?_) (viable_done _ fun _ => id)
    fun _ h => only_eq_none (h.not_takes ',')
  obtain ⟨-, rfl⟩ := Reader.only_eq_some heq
  exact h.bindings.andThen (peeksBelow table n).bindings (fun later => viable_done _ fun _ => id)
    (.inr fun _ _ => trivial)

/-- Expressions are rejected at the first wrong token, however many tokens there are. -/
theorem viableBelow (htable : Delimited table) (n : Nat) : ViableBelow table n := by
  induction n with
  | zero =>
    exact ⟨viable_zero (starts_expression table), viable_zero (starts_unary table),
      fun weakest left => viable_zero (starts_fold table weakest left),
      viable_zero (starts_operands htable), viable_zero (starts_bindings table)⟩
  | succ n ih =>
    have hexpression : Viable (n + 1) (Ends table) AtName (expression table) := by
      rw [expression_eq]
      exact (viable_unary htable ih).andThen (peeksBelow table (n + 1)).unary (viable_fold ih 0)
        (.inl (strict_unary table))
    exact ⟨hexpression, viable_unary htable ih, viable_fold ih, viable_operands htable ih hexpression,
      viable_bindings ih⟩

end Parser

end Kaleidoscope
