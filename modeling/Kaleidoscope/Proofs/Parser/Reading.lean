import Kaleidoscope.Parser.Reading
import Mathlib.Tactic.Basic

/-!
# What readers accept

A reading that is accepted is known by its value and by the tokens that it leaves. The lemmas below
say this of each way to put readers together; nothing else needs to look into a reading.
-/

namespace Kaleidoscope

/-- The tokens begin with `wanted`, and `rest` follows. -/
def Takes (wanted : Token) (tokens rest : List Lexeme) : Prop :=
  ∃ span, tokens = ⟨wanted, span⟩ :: rest

/-- What follows a token is shorter. -/
theorem Takes.length_lt {wanted : Token} {tokens rest : List Lexeme} (h : Takes wanted tokens rest) :
    rest.length < tokens.length := by
  obtain ⟨span, rfl⟩ := h
  exact Nat.lt_succ_self _

/-- The first token is one token. -/
theorem Takes.unique {wanted other : Token} {tokens rest rest' : List Lexeme}
    (h : Takes wanted tokens rest) (h' : Takes other tokens rest') :
    wanted = other ∧ rest = rest' := by
  obtain ⟨span, rfl⟩ := h
  obtain ⟨span', h'⟩ := h'
  cases h'
  exact ⟨rfl, rfl⟩

/-- No other token comes first. -/
theorem Takes.not_takes {wanted other : Token} {tokens rest : List Lexeme}
    (h : Takes wanted tokens rest) (hne : wanted ≠ other) (more : List Lexeme) :
    ¬ Takes other tokens more :=
  fun h' => hne (h.unique h').1

/-- A list that begins with a token takes it. -/
theorem takes_cons (first : Lexeme) (rest : List Lexeme) : Takes first.token (first :: rest) rest :=
  ⟨first.span, rfl⟩

/-- The tokens begin with those written, and `rest` follows. -/
def Spells (tokens : List Lexeme) (written : List Token) (rest : List Lexeme) : Prop :=
  ∃ consumed, tokens = consumed ++ rest ∧ consumed.map Lexeme.token = written

/-- Nothing is written in front of all tokens. -/
theorem spells_nil {tokens rest : List Lexeme} : Spells tokens [] rest ↔ tokens = rest := by
  constructor
  · rintro ⟨consumed, rfl, h⟩
    rw [List.map_eq_nil_iff] at h
    rw [h, List.nil_append]
  · rintro rfl
    exact ⟨[], rfl, rfl⟩

/-- Tokens are written one after the other. -/
theorem spells_cons {tokens rest : List Lexeme} {first : Token} {written : List Token} :
    Spells tokens (first :: written) rest ↔
      ∃ more, Takes first tokens more ∧ Spells more written rest := by
  constructor
  · rintro ⟨consumed, rfl, h⟩
    obtain ⟨⟨token, span⟩, later, rfl, rfl, hlater⟩ := List.map_eq_cons_iff.1 h
    exact ⟨later ++ rest, ⟨span, rfl⟩, later, rfl, hlater⟩
  · rintro ⟨more, ⟨span, rfl⟩, later, rfl, rfl⟩
    exact ⟨⟨first, span⟩ :: later, rfl, rfl⟩

/-- What is written in two parts is written one part after the other. -/
theorem spells_append {tokens rest : List Lexeme} {written later : List Token} :
    Spells tokens (written ++ later) rest ↔
      ∃ mid, Spells tokens written mid ∧ Spells mid later rest := by
  constructor
  · rintro ⟨consumed, rfl, h⟩
    obtain ⟨before, behind, rfl, rfl, rfl⟩ := List.map_eq_append_iff.1 h
    exact ⟨behind ++ rest, ⟨before, List.append_assoc .., rfl⟩, behind, rfl, rfl⟩
  · rintro ⟨mid, ⟨before, rfl, rfl⟩, behind, rfl, rfl⟩
    exact ⟨before ++ behind, (List.append_assoc ..).symm, List.map_append ..⟩

/-- One token is written where it is taken. -/
theorem spells_singleton {tokens rest : List Lexeme} {token : Token} :
    Spells tokens [token] rest ↔ Takes token tokens rest := by
  rw [spells_cons]
  constructor
  · rintro ⟨more, htakes, h⟩
    exact spells_nil.1 h ▸ htakes
  · exact fun htakes => ⟨rest, htakes, spells_nil.2 rfl⟩

namespace Reading

variable {α β : Type} {tokens rest : List Lexeme} {a : α} {b : β}

/-- The reading is accepted with a value, and some tokens are left. -/
def Accepts (reading : Reading tokens α) (value : α) (rest : List Lexeme) : Prop :=
  ∃ suffix, reading = .accepted value rest suffix

/-- What a reading leaves is an end piece. -/
theorem Accepts.suffix {reading : Reading tokens α} (h : reading.Accepts a rest) : rest <:+ tokens := by
  obtain ⟨suffix, -⟩ := h
  exact suffix

/-- A reading leaves no more than there was. -/
theorem Accepts.length_le {reading : Reading tokens α} (h : reading.Accepts a rest) :
    rest.length ≤ tokens.length :=
  h.suffix.length_le

/-- What is done is accepted with its value, and leaves all tokens. -/
theorem accepts_done {value : α} :
    (done value tokens).Accepts a rest ↔ a = value ∧ rest = tokens := by
  constructor
  · rintro ⟨_, h⟩
    cases h
    exact ⟨rfl, rfl⟩
  · rintro ⟨rfl, rfl⟩
    exact ⟨_, rfl⟩

/-- A failure is not accepted. -/
theorem accepts_fail {error : ParseError} :
    (fail error tokens : Reading tokens α).Accepts a rest ↔ False := by
  constructor
  · rintro ⟨_, h⟩
    cases h
  · exact False.elim

/-- An unexpected token is not accepted. -/
theorem accepts_unexpected {expected : Construct} :
    (unexpected expected tokens : Reading tokens α).Accepts a rest ↔ False :=
  accepts_fail

/-- A reading of the later tokens is accepted as it is by itself. -/
theorem accepts_within {left : List Lexeme} {suffix : left <:+ tokens} {reading : Reading left α} :
    (reading.within suffix).Accepts a rest ↔ reading.Accepts a rest := by
  cases reading with
  | accepted value rest' suffix' =>
    constructor
    · rintro ⟨_, h⟩
      cases h
      exact ⟨_, rfl⟩
    · rintro ⟨_, h⟩
      cases h
      exact ⟨_, rfl⟩
  | rejected error rest' suffix' =>
    constructor
    · rintro ⟨_, h⟩
      cases h
    · rintro ⟨_, h⟩
      cases h

/-- A reading behind a token is accepted as it is by itself. -/
theorem accepts_past {first : Lexeme} {reading : Reading tokens α} :
    (past first reading).Accepts a rest ↔ reading.Accepts a rest :=
  accepts_within

/-- Two readings are accepted if the second one is where the first one has stopped. -/
theorem accepts_andThen {reading : Reading tokens α}
    {next : α → (rest : List Lexeme) → rest.length ≤ tokens.length → Reading rest β} :
    (reading.andThen next).Accepts b rest ↔
      ∃ a mid, ∃ h : reading.Accepts a mid, (next a mid h.length_le).Accepts b rest := by
  cases reading with
  | accepted value mid suffix =>
    change ((next value mid suffix.length_le).within suffix).Accepts b rest ↔ _
    rw [accepts_within]
    refine ⟨fun h => ⟨value, mid, ⟨suffix, rfl⟩, h⟩, ?_⟩
    rintro ⟨a, mid', ⟨_, heq⟩, h⟩
    cases heq
    exact h
  | rejected error rest' suffix =>
    constructor
    · rintro ⟨_, h⟩
      cases h
    · rintro ⟨_, _, ⟨_, h⟩, -⟩
      cases h

/-- A function of the value changes nothing else. -/
theorem accepts_map {reading : Reading tokens α} {f : α → β} :
    (reading.map f).Accepts b rest ↔ ∃ a, reading.Accepts a rest ∧ b = f a := by
  cases reading with
  | accepted value mid suffix =>
    constructor
    · rintro ⟨_, h⟩
      cases h
      exact ⟨value, ⟨_, rfl⟩, rfl⟩
    · rintro ⟨_, ⟨_, h⟩, rfl⟩
      cases h
      exact ⟨_, rfl⟩
  | rejected error mid suffix =>
    constructor
    · rintro ⟨_, h⟩
      cases h
    · rintro ⟨_, ⟨_, h⟩, -⟩
      cases h

end Reading

open Reading

variable {α : Type} {tokens rest : List Lexeme} {a : α}

/-- What is read behind a token that has to come is accepted where the token comes. -/
theorem accepts_expect {wanted : Token} {construct : Construct}
    {next : (rest : List Lexeme) → rest.length < tokens.length → Reading rest α} :
    (expect wanted construct tokens next).Accepts a rest ↔
      ∃ more, ∃ h : Takes wanted tokens more, (next more h.length_lt).Accepts a rest := by
  cases tokens with
  | nil =>
    refine accepts_unexpected.trans ⟨False.elim, ?_⟩
    rintro ⟨_, ⟨_, h⟩, -⟩
    cases h
  | cons first more =>
    rw [expect]
    by_cases hfirst : first.token = wanted
    · subst hfirst
      rw [if_pos rfl, accepts_past]
      refine ⟨fun h => ⟨more, takes_cons first more, h⟩, ?_⟩
      rintro ⟨more', htakes, h⟩
      obtain rfl := (htakes.unique (takes_cons first more)).2
      exact h
    · rw [if_neg hfirst, accepts_unexpected]
      refine ⟨False.elim, ?_⟩
      rintro ⟨more', htakes, -⟩
      exact hfirst (htakes.unique (takes_cons first more)).1.symm

/-- The token is taken if it comes next, and the alternative is read if not. -/
theorem accepts_ifNext {wanted : Token}
    {next : (rest : List Lexeme) → rest.length < tokens.length → Reading rest α}
    {otherwise : Reading tokens α} :
    (ifNext wanted tokens next otherwise).Accepts a rest ↔
      (∃ more, ∃ h : Takes wanted tokens more, (next more h.length_lt).Accepts a rest) ∨
        (∀ more, ¬ Takes wanted tokens more) ∧ otherwise.Accepts a rest := by
  cases tokens with
  | nil =>
    refine ⟨fun h => .inr ⟨?_, h⟩, ?_⟩
    · rintro more ⟨_, h⟩
      cases h
    · rintro (⟨_, ⟨_, h⟩, -⟩ | ⟨-, h⟩)
      · cases h
      · exact h
  | cons first more =>
    rw [ifNext]
    by_cases hfirst : first.token = wanted
    · subst hfirst
      rw [if_pos rfl, accepts_past]
      refine ⟨fun h => .inl ⟨more, takes_cons first more, h⟩, ?_⟩
      rintro (⟨more', htakes, h⟩ | ⟨hnone, -⟩)
      · obtain rfl := (htakes.unique (takes_cons first more)).2
        exact h
      · exact (hnone more (takes_cons first more)).elim
    · rw [if_neg hfirst]
      have hnone : ∀ more', ¬ Takes wanted (first :: more) more' := fun more' htakes =>
        hfirst (htakes.unique (takes_cons first more)).1.symm
      refine ⟨fun h => .inr ⟨hnone, h⟩, ?_⟩
      rintro (⟨more', htakes, -⟩ | ⟨-, h⟩)
      · exact (hnone more' htakes).elim
      · exact h

/-- What is read behind an identifier that has to come is accepted where one comes. -/
theorem accepts_expectName {construct : Construct}
    {next : String → (rest : List Lexeme) → rest.length < tokens.length → Reading rest α} :
    (expectName construct tokens next).Accepts a rest ↔
      ∃ name more, ∃ h : Takes (.identifier name) tokens more,
        (next name more h.length_lt).Accepts a rest := by
  have hnone (hname : ∀ name more, ¬ Takes (.identifier name) tokens more) :
      ¬ ∃ name more, ∃ h : Takes (.identifier name) tokens more,
        (next name more h.length_lt).Accepts a rest :=
    fun ⟨name, more, htakes, _⟩ => hname name more htakes
  cases tokens with
  | nil =>
    refine accepts_unexpected.trans ⟨False.elim, hnone ?_⟩
    rintro name more ⟨_, h⟩
    cases h
  | cons first more =>
    obtain ⟨token, span⟩ := first
    cases token with
    | identifier name =>
      rw [expectName, accepts_past]
      refine ⟨fun h => ⟨name, more, ⟨span, rfl⟩, h⟩, ?_⟩
      rintro ⟨name', more', ⟨span', htakes⟩, h⟩
      cases htakes
      exact h
    | _ =>
      refine accepts_unexpected.trans ⟨False.elim, hnone ?_⟩
      rintro name more' ⟨_, h⟩
      cases h

end Kaleidoscope
