import Kaleidoscope.Proofs.Parser.Completeness
import Kaleidoscope.Proofs.Parser.Readers

/-!
# One token of lookahead

What a reader does is told by the tokens that it takes and by the one behind them. An accepted
reading may even be followed by another token, as long as that one does not go on with what was
read. So a statement can be cut out of its source, and whether one that is rejected could have gone
on is decided by the token at which it was.
-/

namespace Kaleidoscope

/-- The same token comes next, or none. -/
def SameNext (rest rest' : List Lexeme) : Prop :=
  rest.head?.map Lexeme.token = rest'.head?.map Lexeme.token

/-- The same tokens come first, and this is what is left behind them. -/
def Together (tokens rest tokens' rest' : List Lexeme) : Prop :=
  ∃ written, Spells tokens written rest ∧ Spells tokens' written rest'

/-- The same token comes next if the first ones are the same. -/
theorem sameNext_cons {first first' : Lexeme} (h : first.token = first'.token)
    (more more' : List Lexeme) : SameNext (first :: more) (first' :: more') :=
  congrArg some h

/-- That the same token comes next goes both ways. -/
theorem SameNext.symm {rest rest' : List Lexeme} (h : SameNext rest rest') : SameNext rest' rest :=
  Eq.symm h

/-- What is said of the next token is said of the same one elsewhere. -/
theorem SameNext.forall_head {rest rest' : List Lexeme} (h : SameNext rest rest') (P : Token → Prop)
    (hP : ∀ first ∈ rest.head?, P first.token) : ∀ first ∈ rest'.head?, P first.token := by
  intro first' hfirst'
  have htoken : rest.head?.map Lexeme.token = some first'.token := by
    rw [show rest.head?.map Lexeme.token = _ from h, Option.mem_def.1 hfirst', Option.map_some]
  obtain ⟨first, hfirst, heq⟩ := Option.map_eq_some_iff.1 htoken
  rw [← heq]
  exact hP first hfirst

section

variable {tokens mid rest tokens' rest' : List Lexeme}

/-- Tokens in front of others are those that they are. -/
theorem spells_of_append (taken rest : List Lexeme) :
    Spells (taken ++ rest) (taken.map Lexeme.token) rest :=
  ⟨taken, rfl, rfl⟩

/-- What has been taken is known by what is left. -/
theorem Spells.unique {written written' : List Token} (h : Spells tokens written rest)
    (h' : Spells tokens written' rest) : written = written' := by
  obtain ⟨consumed, rfl, rfl⟩ := h
  obtain ⟨consumed', heq, rfl⟩ := h'
  rw [List.append_cancel_right heq]

/-- Either no token has been taken yet, or the first one was the same. -/
theorem Together.cases (h : Together tokens rest tokens' rest') :
    tokens = rest ∧ tokens' = rest' ∨
      ∃ first more first' more', tokens = first :: more ∧ tokens' = first' :: more' ∧
        first.token = first'.token ∧ Together more rest more' rest' := by
  obtain ⟨written, hspells, hspells'⟩ := h
  cases written with
  | nil => exact .inl ⟨spells_nil.1 hspells, spells_nil.1 hspells'⟩
  | cons token written =>
    obtain ⟨more, ⟨span, rfl⟩, hmore⟩ := spells_cons.1 hspells
    obtain ⟨more', ⟨span', rfl⟩, hmore'⟩ := spells_cons.1 hspells'
    exact .inr ⟨_, more, _, more', rfl, rfl, rfl, written, hmore, hmore'⟩

/-- Where no token has been taken from one list, none has been from the other. -/
theorem Together.nothing_taken (h : Together rest rest tokens' rest') : tokens' = rest' := by
  obtain ⟨written, hspells, hspells'⟩ := h
  obtain rfl := hspells.unique (spells_nil.2 rfl)
  exact spells_nil.1 hspells'

/-- What is written up to a place in between and what is written from there on. -/
theorem Spells.split {written : List Token} (h : Spells tokens written rest) (hmid : mid <:+ tokens)
    (hrest : rest <:+ mid) :
    ∃ taken later, written = taken ++ later ∧ Spells tokens taken mid ∧ Spells mid later rest := by
  obtain ⟨taken, rfl⟩ := hmid
  obtain ⟨later, rfl⟩ := hrest
  refine ⟨_, _, h.unique ?_, spells_of_append _ _, spells_of_append _ _⟩
  exact spells_append.2 ⟨_, spells_of_append _ _, spells_of_append _ _⟩

/-- What is taken in two steps from one list is taken in two steps from the other. -/
theorem Together.split (h : Together tokens rest tokens' rest') (hmid : mid <:+ tokens)
    (hrest : rest <:+ mid) :
    ∃ mid', Together tokens mid tokens' mid' ∧ Together mid rest mid' rest' := by
  obtain ⟨written, hspells, hspells'⟩ := h
  obtain ⟨taken, later, rfl, htaken, hlater⟩ := hspells.split hmid hrest
  obtain ⟨mid', htaken', hlater'⟩ := spells_append.1 hspells'
  exact ⟨mid', ⟨taken, htaken, htaken'⟩, ⟨later, hlater, hlater'⟩⟩

/-- The same token comes first if the same comes next behind those that have been taken. -/
theorem Together.sameNext (h : Together tokens rest tokens' rest') (hnext : SameNext rest rest') :
    SameNext tokens tokens' := by
  obtain ⟨rfl, rfl⟩ | ⟨first, more, first', more', rfl, rfl, htoken, -⟩ := h.cases
  · exact hnext
  · exact sameNext_cons htoken more more'

end

namespace Reading

variable {α : Type} {tokens rest : List Lexeme}

/-- What a rejected reading leaves is the end of what it was given. -/
theorem Rejects.suffix {reading : Reading tokens α} {error : ParseError}
    (h : reading.Rejects error rest) : rest <:+ tokens := by
  obtain ⟨suffix, -⟩ := h
  exact suffix

end Reading

namespace Reader

variable {α β : Type} {n m : Nat} {F G : List Lexeme → Prop}

/-- Whatever the reader accepts, it has taken a token. -/
def Strict (f : Reader α) : Prop :=
  ∀ ⦃tokens a rest⦄, (f tokens).Accepts a rest → rest.length < tokens.length

/-- What accepts nothing is strict. -/
theorem strict_unexpected (construct : Construct) :
    Strict (Reading.unexpected construct : Reader α) :=
  fun _ _ _ h => (Reading.accepts_unexpected.1 h).elim

/-- A reader that begins with a strict one is strict. -/
theorem Strict.andThen {f : Reader α} (h : Strict f) (g : α → Reader β) : Strict (f.andThen g) := by
  intro tokens b rest hb
  obtain ⟨a, mid, ha, hb⟩ := accepts_andThen.1 hb
  exact Nat.lt_of_le_of_lt hb.length_le (h ha)

/-- A token that tells how to go on is taken. -/
theorem Strict.choose {otherwise : Reader α} (h : Strict otherwise)
    (told : Token → Option (Reader α)) : Strict (choose told otherwise) := by
  intro tokens a rest ha
  cases tokens with
  | nil => exact h ha
  | cons first more =>
    rw [Reader.choose] at ha
    split at ha
    · exact Nat.lt_succ_of_le (Reading.accepts_past.1 ha).length_le
    · exact h ha

/-- A reader that begins with a token is strict. -/
theorem strict_expect (wanted : Token) (construct : Construct) (f : Reader α) :
    Strict (expect wanted construct f) :=
  (strict_unexpected construct).choose _

/-- What the reader does with fewer than `n` tokens is told by those that it takes and by the one
behind them. What it accepts is accepted as well where something else follows that has the property
`F`. -/
structure Peeks (n : Nat) (F : List Lexeme → Prop) (f : Reader α) : Prop where
  accepts : ∀ {tokens rest tokens' rest' : List Lexeme} {a : α}, tokens.length < n →
    (f tokens).Accepts a rest → Together tokens rest tokens' rest' →
    SameNext rest rest' ∨ F rest' → (f tokens').Accepts a rest'
  rejects : ∀ {tokens rest tokens' rest' : List Lexeme} {error : ParseError}, tokens.length < n →
    (f tokens).Rejects error rest → Together tokens rest tokens' rest' → SameNext rest rest' →
    (f tokens').Rejects error rest'

/-- Nothing is asked of a reader without tokens. -/
theorem peeks_zero (F : List Lexeme → Prop) (f : Reader α) : Peeks 0 F f :=
  ⟨fun hlength => (Nat.not_lt_zero _ hlength).elim, fun hlength => (Nat.not_lt_zero _ hlength).elim⟩

/-- A reader that looks ahead by one token does so on fewer tokens, and in front of less. -/
theorem Peeks.mono {f : Reader α} (h : Peeks n F f) (hle : m ≤ n) (hF : ∀ rest, G rest → F rest) :
    Peeks m G f where
  accepts hlength ha htogether hnext :=
    h.accepts (Nat.lt_of_lt_of_le hlength hle) ha htogether (hnext.imp_right (hF _))
  rejects hlength := h.rejects (Nat.lt_of_lt_of_le hlength hle)

/-- What takes nothing looks ahead by one token. -/
theorem peeks_done (a : α) : Peeks n F (Reading.done a) where
  accepts _ ha htogether _ := by
    obtain ⟨rfl, rfl⟩ := Reading.accepts_done.1 ha
    exact Reading.accepts_done.2 ⟨rfl, htogether.nothing_taken.symm⟩
  rejects _ h := (Reading.rejects_done.1 h).elim

/-- What always fails looks ahead by one token. -/
theorem peeks_fail (error : ParseError) : Peeks n F (Reading.fail error : Reader α) where
  accepts _ h := (Reading.accepts_fail.1 h).elim
  rejects _ h htogether _ := by
    obtain ⟨rfl, rfl⟩ := Reading.rejects_fail.1 h
    exact Reading.rejects_fail.2 ⟨rfl, htogether.nothing_taken.symm⟩

/-- What reports the next token looks ahead by one token. -/
theorem peeks_unexpected (construct : Construct) :
    Peeks n F (Reading.unexpected construct : Reader α) where
  accepts _ h := (Reading.accepts_unexpected.1 h).elim
  rejects hlength h htogether hnext := by
    rw [Reading.unexpected] at h ⊢
    rw [← htogether.sameNext hnext]
    exact (peeks_fail (F := F) _).rejects hlength h htogether hnext

/-- Where the second reader takes no token, the first one has to accept what follows both. -/
theorem Peeks.andThen {f : Reader α} {g : α → Reader β} (hf : Peeks n F f)
    (hg : ∀ a, Peeks n G (g a)) (h : (∀ a, Strict (g a)) ∨ ∀ rest, G rest → F rest) :
    Peeks n G (f.andThen g) where
  accepts := by
    intro tokens rest tokens' rest' b hlength hb htogether hnext
    obtain ⟨a, mid, ha, hb⟩ := accepts_andThen.1 hb
    obtain ⟨mid', hfirst, hsecond⟩ := htogether.split ha.suffix hb.suffix
    have hmid : SameNext mid mid' ∨ F mid' := by
      rcases hnext with hsame | hG
      · exact .inl (hsecond.sameNext hsame)
      · obtain ⟨rfl, rfl⟩ | ⟨first, more, first', more', rfl, rfl, htoken, -⟩ := hsecond.cases
        · rcases h with hstrict | hGF
          · exact absurd (hstrict a hb) (Nat.lt_irrefl _)
          · exact .inr (hGF _ hG)
        · exact .inl (sameNext_cons htoken more more')
    exact accepts_andThen.2 ⟨a, mid', hf.accepts hlength ha hfirst hmid,
      (hg a).accepts (Nat.lt_of_le_of_lt ha.length_le hlength) hb hsecond hnext⟩
  rejects := by
    intro tokens rest tokens' rest' error hlength h htogether hnext
    rcases rejects_andThen.1 h with h | ⟨a, mid, ha, h⟩
    · exact rejects_andThen.2 (.inl (hf.rejects hlength h htogether hnext))
    · obtain ⟨mid', hfirst, hsecond⟩ := htogether.split ha.suffix h.suffix
      refine rejects_andThen.2 (.inr ⟨a, mid', ?_, ?_⟩)
      · exact hf.accepts hlength ha hfirst (.inl (hsecond.sameNext hnext))
      · exact (hg a).rejects (Nat.lt_of_le_of_lt ha.length_le hlength) h hsecond hnext

section

variable {told : Token → Option (Reader α)} {otherwise : Reader α} {tokens : List Lexeme}

/-- The next token tells how to go on, or it does not, or there is none. -/
theorem told_or_not (told : Token → Option (Reader α)) (tokens : List Lexeme) :
    (∃ first more f, tokens = first :: more ∧ told first.token = some f) ∨
      ∀ first ∈ tokens.head?, told first.token = none := by
  cases tokens with
  | nil => exact .inr nofun
  | cons first more =>
    cases h : told first.token with
    | some f => exact .inl ⟨first, more, f, rfl, h⟩
    | none =>
      right
      rintro _ ⟨⟩
      exact h

/-- Where the next token does not tell how to go on and none is taken otherwise, what follows must
not tell either. -/
theorem peeks_choose (hle : m ≤ n + 1) (htold : ∀ token f, told token = some f → Peeks n G f)
    (hotherwise : Peeks m G otherwise)
    (h : Strict otherwise ∨ ∀ rest, G rest → ∀ first ∈ rest.head?, told first.token = none) :
    Peeks m G (choose told otherwise) where
  accepts := by
    intro tokens rest tokens' rest' a hlength ha htogether hnext
    rcases told_or_not told tokens with ⟨first, more, f, rfl, hf⟩ | hnone
    · rw [choose_cons_of_some hf, Reading.accepts_past] at ha
      have hlt := ha.length_le
      obtain ⟨rfl, -⟩ | ⟨_, _, first', more', heq, rfl, htoken, hmore⟩ := htogether.cases
      · exact absurd hlt (Nat.not_succ_le_self _)
      · cases heq
        rw [choose_cons_of_some (htoken ▸ hf), Reading.accepts_past]
        rw [List.length_cons] at hlength
        exact (htold _ f hf).accepts (by omega) ha hmore hnext
    · rw [choose_of_none hnone] at ha
      have hnone' : ∀ first ∈ tokens'.head?, told first.token = none := by
        rcases hnext with hsame | hG
        · exact (htogether.sameNext hsame).forall_head (told · = none) hnone
        · obtain ⟨rfl, rfl⟩ | ⟨first, more, first', more', rfl, rfl, htoken, -⟩ := htogether.cases
          · rcases h with hstrict | hG'
            · exact absurd (hstrict ha) (Nat.lt_irrefl _)
            · exact hG' _ hG
          · exact (sameNext_cons htoken more more').forall_head (told · = none) hnone
      rw [choose_of_none hnone']
      exact hotherwise.accepts hlength ha htogether hnext
  rejects := by
    intro tokens rest tokens' rest' error hlength hrejects htogether hnext
    rcases told_or_not told tokens with ⟨first, more, f, rfl, hf⟩ | hnone
    · rw [choose_cons_of_some hf, Reading.rejects_past] at hrejects
      have hlt := hrejects.suffix.length_le
      obtain ⟨rfl, -⟩ | ⟨_, _, first', more', heq, rfl, htoken, hmore⟩ := htogether.cases
      · exact absurd hlt (Nat.not_succ_le_self _)
      · cases heq
        rw [choose_cons_of_some (htoken ▸ hf), Reading.rejects_past]
        rw [List.length_cons] at hlength
        exact (htold _ f hf).rejects (by omega) hrejects hmore hnext
    · rw [choose_of_none hnone] at hrejects
      rw [choose_of_none ((htogether.sameNext hnext).forall_head (told · = none) hnone)]
      exact hotherwise.rejects hlength hrejects htogether hnext

/-- If one token alone tells how to go on, what follows must not be that one. -/
theorem peeks_only {wanted : Token} {f : Reader α} (hle : m ≤ n + 1) (hf : Peeks n G f)
    (hotherwise : Peeks m G otherwise)
    (h : Strict otherwise ∨ ∀ rest, G rest → ∀ more, ¬ Takes wanted rest more) :
    Peeks m G (choose (only wanted f) otherwise) := by
  refine peeks_choose hle (fun token f' heq => (only_eq_some heq).2 ▸ hf) hotherwise
    (h.imp_right fun hG rest hrest first hfirst => if_neg fun heq => ?_)
  obtain ⟨more, rfl⟩ := List.head?_eq_some_iff.1 hfirst
  exact hG _ hrest more (heq ▸ takes_cons first more)

/-- A reader behind a token that has to come may see one token less. -/
theorem peeks_expect {wanted : Token} {construct : Construct} {f : Reader α} (hle : m ≤ n + 1)
    (hf : Peeks n G f) : Peeks m G (expect wanted construct f) :=
  peeks_only hle hf (peeks_unexpected construct) (.inl (strict_unexpected construct))

/-- A reader behind an identifier that has to come may see one token less. -/
theorem peeks_expectName {construct : Construct} {f : String → Reader α} (hle : m ≤ n + 1)
    (hf : ∀ name, Peeks n G (f name)) : Peeks m G (expectName construct f) := by
  refine peeks_choose hle (fun token f' heq => ?_) (peeks_unexpected construct)
    (.inl (strict_unexpected construct))
  obtain ⟨name, -, rfl⟩ := named_eq_some heq
  exact hf name

end

end Reader

namespace Parser

open Reading (unexpected)
open Reader (Peeks Strict peeks_done peeks_fail peeks_unexpected peeks_choose peeks_only peeks_expect
  peeks_expectName strict_unexpected strict_expect)

variable {table : OperatorTable} {n m : Nat}

/-- A reserved word comes next, or nothing. -/
def AtKeyword (tokens : List Lexeme) : Prop :=
  ∀ first ∈ tokens.head?, ∃ word, first.token = .keyword word

/-- A reserved word is no symbol. -/
theorem AtKeyword.not_takes {tokens : List Lexeme} (h : AtKeyword tokens) (c : Char)
    (more : List Lexeme) : ¬ Takes (.symbol c) tokens more := by
  rintro ⟨span, rfl⟩
  obtain ⟨word, hword⟩ := h _ rfl
  cases hword

/-- A reserved word does not go on with an expression. -/
theorem AtKeyword.ends {tokens : List Lexeme} (h : AtKeyword tokens) : Ends table tokens :=
  ⟨h.not_takes '(', fun c _ more htakes _ => (h.not_takes c more htakes).elim⟩

/-- An expression that is no operator application has a token. -/
theorem strict_primary (table : OperatorTable) : Strict (primary table) := by
  rw [primary_eq]
  exact (strict_unexpected _).choose _

/-- An operand has a token. -/
theorem strict_unary (table : OperatorTable) : Strict (unary table) := by
  rw [unary_eq]
  exact (strict_primary table).choose _

/-- An expression is never empty. -/
theorem strict_expression (table : OperatorTable) : Strict (expression table) := by
  rw [expression_eq]
  exact (strict_unary table).andThen _

/-- Arguments in front of their closing parenthesis have a token. -/
theorem strict_operands (table : OperatorTable) : Strict (operands table) := by
  rw [operands_eq]
  exact (strict_expression table).andThen _

/-- The readers of expressions look ahead by one token, as far as fewer than `n` tokens show. -/
structure PeeksBelow (table : OperatorTable) (n : Nat) : Prop where
  expression : Peeks n (Ends table) (expression table)
  unary : Peeks n (Ends table) (unary table)
  fold : ∀ weakest left, Peeks n (Ends table) (fold table weakest left)
  operands : Peeks n (fun _ => True) (operands table)
  bindings : Peeks n AtKeyword (bindings table)

/-- One token tells whether an optional part comes. -/
theorem peeks_optional (h : PeeksBelow table n) (mark : Char) :
    Peeks (n + 1) AtKeyword (optional table mark) := by
  rw [optional_eq]
  refine peeks_only (Nat.le_refl _) ?_ (peeks_done none) (.inr fun rest hrest => hrest.not_takes mark)
  exact (h.expression.mono (Nat.le_refl _) fun _ => AtKeyword.ends).andThen (fun _ => peeks_done _)
    (.inr fun _ => id)

/-- One token tells how arguments go on. -/
theorem peeks_arguments (h : PeeksBelow table n) : Peeks n (fun _ => True) (arguments table) := by
  rw [arguments_eq]
  exact peeks_only (Nat.le_succ n) (peeks_done _) h.operands (.inl (strict_operands table))

/-- One token tells how an expression that is no operator application goes on. -/
theorem peeks_primary (h : PeeksBelow table n) : Peeks (n + 1) (Ends table) (primary table) := by
  rw [primary_eq]
  refine peeks_choose (Nat.le_refl _) (fun token f heq => ?_) (peeks_unexpected _)
    (.inl (strict_unexpected _))
  have hexpect {α : Type} {wanted : Token} {construct : Construct} {f : Reader α}
      (hf : Peeks n (Ends table) f) : Peeks n (Ends table) (.expect wanted construct f) :=
    peeks_expect (Nat.le_succ n) hf
  unfold primaryBehind at heq
  split at heq
  · cases heq
    exact peeks_done _
  · cases heq
    refine peeks_only (Nat.le_succ n) ?_ (peeks_done _) (.inr fun rest hrest => hrest.1)
    exact (peeks_arguments h).andThen (fun _ => peeks_done _) (.inr fun _ _ => trivial)
  · cases heq
    exact h.expression.andThen (fun inner => hexpect (peeks_done inner))
      (.inl fun _ => strict_expect _ _ _)
  · cases heq
    refine h.expression.andThen (fun condition => hexpect ?_) (.inl fun _ => strict_expect _ _ _)
    refine h.expression.andThen (fun consequent => hexpect ?_) (.inl fun _ => strict_expect _ _ _)
    exact h.expression.andThen (fun alternative => peeks_done _) (.inr fun _ => id)
  · cases heq
    refine peeks_expectName (Nat.le_succ n) fun name => hexpect ?_
    refine h.expression.andThen (fun start => hexpect ?_) (.inl fun _ => strict_expect _ _ _)
    refine h.expression.andThen (fun finish => ?_) (.inr fun _ => id)
    refine ((peeks_optional h ',').mono (Nat.le_succ n) fun _ => id).andThen (fun step => hexpect ?_)
      (.inl fun _ => strict_expect _ _ _)
    exact h.expression.andThen (fun body => peeks_done _) (.inr fun _ => id)
  · cases heq
    refine h.bindings.andThen (fun bound => hexpect ?_) (.inl fun _ => strict_expect _ _ _)
    exact h.expression.andThen (fun body => peeks_done _) (.inr fun _ => id)
  · cases heq

/-- One token tells how an operand goes on. -/
theorem peeks_unary (h : PeeksBelow table n) : Peeks (n + 1) (Ends table) (unary table) := by
  rw [unary_eq]
  refine peeks_choose (Nat.le_refl _) (fun token f heq => ?_) (peeks_primary h)
    (.inl (strict_primary table))
  obtain ⟨operator, -, rfl⟩ := Option.map_eq_some_iff.1 heq
  exact h.unary.andThen (fun operand => peeks_done _) (.inr fun _ => id)

/-- Where nothing goes on with an expression, no operator is taken. -/
theorem foldBehind_of_ends {weakest : Nat} {left : Expr} {tokens : List Lexeme}
    (h : Ends table tokens) :
    ∀ first ∈ tokens.head?, foldBehind table weakest left first.token = none := by
  intro first hfirst
  obtain ⟨more, rfl⟩ := List.head?_eq_some_iff.1 hfirst
  unfold foldBehind
  split
  · rename_i c htoken
    split
    · rfl
    · rename_i precedence hlookup
      exact absurd (h.2 c precedence more (htoken ▸ takes_cons first more) hlookup) (Nat.not_lt_zero _)
  · rfl

/-- One token tells whether an operator comes with a right operand. -/
theorem peeks_fold (h : PeeksBelow table n) (weakest : Nat) (left : Expr) :
    Peeks (n + 1) (Ends table) (fold table weakest left) := by
  rw [fold_eq]
  refine peeks_choose (Nat.le_refl _) (fun token f heq => ?_) (peeks_done left)
    (.inr fun rest hrest => foldBehind_of_ends hrest)
  unfold foldBehind at heq
  split at heq
  · split at heq
    · cases heq
    · split at heq
      · cases heq
      · cases heq
        refine h.unary.andThen (fun operand => ?_) (.inr fun _ => id)
        exact (h.fold _ operand).andThen (fun right => h.fold _ _) (.inr fun _ => id)
  · cases heq

/-- One token tells whether another argument comes. -/
theorem peeks_operands (h : PeeksBelow table n)
    (hexpression : Peeks (n + 1) (Ends table) (expression table)) :
    Peeks (n + 1) (fun _ => True) (operands table) := by
  rw [operands_eq]
  refine hexpression.andThen (fun operand => ?_) (.inl fun _ => (strict_expect _ _ _).choose _)
  refine peeks_only (Nat.le_succ _) (peeks_done _) ?_ (.inl (strict_expect _ _ _))
  exact peeks_expect (Nat.le_refl _) (h.operands.andThen (fun _ => peeks_done _) (.inr fun _ => id))

/-- One token tells whether another local variable comes. -/
theorem peeks_bindings (h : PeeksBelow table n) : Peeks (n + 1) AtKeyword (bindings table) := by
  rw [bindings_eq]
  refine peeks_expectName (Nat.le_refl _) fun name => ?_
  refine ((peeks_optional h '=').mono (Nat.le_succ n) fun _ => id).andThen (fun value => ?_)
    (.inr fun _ => id)
  refine peeks_only (Nat.le_succ n) ?_ (peeks_done _) (.inr fun rest hrest => hrest.not_takes ',')
  exact h.bindings.andThen (fun _ => peeks_done _) (.inr fun _ => id)

/-- Expressions are read with one token of lookahead, however many tokens there are. -/
theorem peeksBelow (table : OperatorTable) (n : Nat) : PeeksBelow table n := by
  induction n with
  | zero =>
    exact ⟨Reader.peeks_zero _ _, Reader.peeks_zero _ _, fun _ _ => Reader.peeks_zero _ _,
      Reader.peeks_zero _ _, Reader.peeks_zero _ _⟩
  | succ n ih =>
    have hexpression : Peeks (n + 1) (Ends table) (expression table) := by
      rw [expression_eq]
      exact (peeks_unary ih).andThen (peeks_fold ih 0) (.inr fun _ => id)
    exact ⟨hexpression, peeks_unary ih, peeks_fold ih, peeks_operands ih hexpression, peeks_bindings ih⟩

/-- Of what follows a run of names, only the next token matters. -/
theorem peeks_names (n : Nat) : Peeks n (fun _ => False) names := by
  induction n with
  | zero => exact Reader.peeks_zero _ _
  | succ n ih =>
    rw [names_eq]
    refine peeks_choose (Nat.le_refl _) (fun token f heq => ?_) (peeks_done _) (.inr fun _ => False.elim)
    obtain ⟨name, -, rfl⟩ := Reader.named_eq_some heq
    exact ih.andThen (fun _ => peeks_done _) (.inr fun _ => id)

/-- Parameters have a token, the opening parenthesis. -/
theorem strict_parameters : Strict parameters := by
  rw [parameters_eq]
  exact strict_expect _ _ _

/-- One token tells how parameters go on. -/
theorem peeks_parameters (n : Nat) : Peeks n (fun _ => True) parameters := by
  rw [parameters_eq]
  refine peeks_expect (Nat.le_succ n) ?_
  exact (peeks_names n).andThen (fun found => peeks_expect (Nat.le_succ n) (peeks_done found))
    (.inl fun _ => strict_expect _ _ _)

/-- A precedence is rejected only if a number out of range states it. -/
theorem rejects_precedence {tokens rest : List Lexeme} {error : ParseError} :
    (precedence tokens).Rejects error rest ↔ ∃ value more, Takes (.number value) tokens more ∧
      precedence? value = none ∧ error = .precedence ⟨value⟩ ∧ rest = tokens := by
  unfold precedence
  split
  · rename_i value span more
    have htakes : Takes (.number value) (⟨.number value, span⟩ :: more) more := ⟨span, rfl⟩
    have hsame {value' : Float} {more' : List Lexeme}
        (h : Takes (.number value') (⟨.number value, span⟩ :: more) more') : value' = value :=
      Token.number.inj (h.unique htakes).1
    split
    · rename_i n hn
      rw [Reading.rejects_past, Reading.rejects_done, false_iff]
      rintro ⟨value', more', htakes', hnone, -⟩
      rw [hsame htakes', hn] at hnone
      cases hnone
    · rename_i hnone
      rw [Reading.rejects_fail]
      constructor
      · rintro ⟨rfl, rfl⟩
        exact ⟨value, more, htakes, hnone, rfl, rfl⟩
      · rintro ⟨value', more', htakes', -, rfl, rfl⟩
        rw [hsame htakes']
        exact ⟨rfl, rfl⟩
  · rename_i hnumber
    rw [Reading.rejects_done, false_iff]
    rintro ⟨value, more, ⟨span, rfl⟩, -⟩
    exact hnumber value span more rfl

/-- The same token is taken where the same token comes next. -/
theorem exists_takes_of_sameNext {tokens tokens' more : List Lexeme} {token : Token}
    (h : SameNext tokens tokens') (htakes : Takes token tokens more) :
    ∃ more', Takes token tokens' more' := by
  obtain ⟨span, rfl⟩ := htakes
  obtain ⟨⟨_, span'⟩, hhead, rfl⟩ := Option.map_eq_some_iff.1 h.symm
  obtain ⟨more', rfl⟩ := List.head?_eq_some_iff.1 hhead
  exact ⟨more', span', rfl⟩

/-- One token tells whether a precedence is stated. -/
theorem peeks_precedence (n : Nat) : Peeks n (fun _ => False) precedence where
  accepts := by
    intro tokens rest tokens' rest' a _ ha htogether hnext
    have hsame := htogether.sameNext (hnext.resolve_right id)
    refine accepts_precedence.2 ?_
    rcases accepts_precedence.1 ha with ⟨value, htakes, ha⟩ | ⟨hnone, rfl, rfl⟩
    · obtain ⟨written, hspells, hspells'⟩ := htogether
      obtain rfl := hspells.unique (spells_singleton.2 htakes)
      exact .inl ⟨value, spells_singleton.1 hspells', ha⟩
    · refine .inr ⟨fun value more htakes => ?_, rfl, htogether.nothing_taken.symm⟩
      obtain ⟨more', htakes'⟩ := exists_takes_of_sameNext (SameNext.symm hsame) htakes
      exact hnone value more' htakes'
  rejects := by
    intro tokens rest tokens' rest' error _ h htogether hnext
    obtain ⟨value, more, htakes, hnone, rfl, rfl⟩ := rejects_precedence.1 h
    obtain ⟨more', htakes'⟩ := exists_takes_of_sameNext (htogether.sameNext hnext) htakes
    exact rejects_precedence.2 ⟨value, more', htakes', hnone, rfl, htogether.nothing_taken.symm⟩

/-- The number of parameters is judged without another token. -/
theorem peeks_withArity (n arity : Nat) (p : Prototype) :
    Peeks n (fun _ => True) (withArity arity p) := by
  unfold withArity
  split
  · exact peeks_done p
  · exact peeks_fail _

/-- Signatures are read with one token of lookahead, and end at a parenthesis. -/
theorem peeks_prototype (n : Nat) : Peeks n (fun _ => True) prototype := by
  have hunary : Peeks n (fun _ => True) unaryPrototype := by
    rw [unaryPrototype_eq]
    refine peeks_choose (Nat.le_succ n) (fun token f heq => ?_) (peeks_unexpected _)
      (.inl (strict_unexpected _))
    obtain ⟨operator, -, rfl⟩ := Option.map_eq_some_iff.1 heq
    exact (peeks_parameters n).andThen (fun found => peeks_withArity n 1 _) (.inr fun _ => id)
  have hbinary : Peeks n (fun _ => True) binaryPrototype := by
    rw [binaryPrototype_eq]
    refine peeks_choose (Nat.le_succ n) (fun token f heq => ?_) (peeks_unexpected _)
      (.inl (strict_unexpected _))
    unfold binaryPrototypeBehind at heq
    split at heq
    · cases heq
    · split at heq
      · cases heq
      · cases heq
        refine (peeks_precedence n).andThen (fun stated => ?_)
          (.inl fun _ => strict_parameters.andThen _)
        exact (peeks_parameters n).andThen (fun found => peeks_withArity n 2 _) (.inr fun _ => id)
  rw [prototype_eq]
  refine peeks_choose (Nat.le_succ n) (fun token f heq => ?_) (peeks_unexpected _)
    (.inl (strict_unexpected _))
  unfold prototypeBehind at heq
  split at heq
  · cases heq
    exact (peeks_parameters n).andThen (fun found => peeks_done _) (.inr fun _ => id)
  · cases heq
    exact hunary
  · cases heq
    exact hbinary
  · cases heq

/-- A statement ends where a semicolon comes next, or nothing. -/
theorem accepts_terminated {found found' : Statement} {tokens rest : List Lexeme} :
    (terminated found tokens).Accepts found' rest ↔
      (∀ next ∈ tokens.head?, next.token.endsStatement) ∧ found' = found ∧ rest = tokens := by
  cases tokens with
  | nil => simpa [terminated] using Reading.accepts_done
  | cons first more =>
    rw [terminated]
    split
    · rename_i hends
      simpa [hends] using Reading.accepts_done
    · rename_i hends
      simpa [hends] using Reading.accepts_unexpected

/-- What comes next instead of the end of a statement is rejected. -/
theorem rejects_terminated {found : Statement} {tokens rest : List Lexeme} {error : ParseError} :
    (terminated found tokens).Rejects error rest ↔
      (¬ ∀ next ∈ tokens.head?, next.token.endsStatement) ∧
        error = .unexpected .terminator (tokens.head?.map Lexeme.token) ∧ rest = tokens := by
  cases tokens with
  | nil => simpa [terminated] using Reading.rejects_done
  | cons first more =>
    rw [terminated]
    split
    · rename_i hends
      simpa [hends] using Reading.rejects_done
    · rename_i hends
      simpa [hends, unexpected] using Reading.rejects_fail

/-- One token tells whether a statement ends. -/
theorem peeks_terminated (n : Nat) (found : Statement) : Peeks n (· = []) (terminated found) where
  accepts := by
    intro tokens rest tokens' rest' a _ ha htogether hnext
    obtain ⟨hends, rfl, rfl⟩ := accepts_terminated.1 ha
    obtain rfl := htogether.nothing_taken
    refine accepts_terminated.2 ⟨?_, rfl, rfl⟩
    rcases hnext with hsame | rfl
    · exact hsame.forall_head (·.endsStatement) hends
    · exact nofun
  rejects := by
    intro tokens rest tokens' rest' error _ h htogether hnext
    obtain ⟨hends, rfl, rfl⟩ := rejects_terminated.1 h
    obtain rfl := htogether.nothing_taken
    refine rejects_terminated.2 ⟨fun hends' => hends ?_, congrArg _ hnext, rfl⟩
    exact (SameNext.symm hnext).forall_head (·.endsStatement) hends'

/-- Statements are read with one token of lookahead, and the end of the source may come instead of
it. -/
theorem peeks_whole (table : OperatorTable) (n : Nat) : Peeks n (· = []) (whole table) := by
  have hbody (found : Expr → Statement) :
      Peeks n (· = []) (.andThen (expression table) fun body => terminated (found body)) := by
    refine (peeksBelow table n).expression.andThen (fun body => peeks_terminated n _) (.inr ?_)
    rintro _ rfl
    exact AtKeyword.ends nofun
  rw [whole_eq]
  refine peeks_choose (Nat.le_succ n) (fun token f heq => ?_) (hbody .evaluation)
    (.inl ((strict_expression table).andThen _))
  unfold wholeBehind at heq
  split at heq
  · cases heq
    exact (peeks_prototype n).andThen (fun signature => hbody fun body => .definition ⟨signature, body⟩)
      (.inr fun _ _ => trivial)
  · cases heq
    exact (peeks_prototype n).andThen (fun signature => peeks_terminated n _) (.inr fun _ _ => trivial)
  · cases heq

end Parser

end Kaleidoscope
