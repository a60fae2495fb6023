import Kaleidoscope.Parser.Statement
import Kaleidoscope.Proofs.Parser.Steps

/-!
# How statements are read, step by step

As for expressions, each function is described by what its readings accept. A signature that is
accepted comes from one of three forms, and so does a statement.
-/

namespace Kaleidoscope

/-- What follows a token is an end piece. -/
theorem Takes.suffix {wanted : Token} {tokens rest : List Lexeme} (h : Takes wanted tokens rest) :
    rest <:+ tokens := by
  obtain ⟨span, rfl⟩ := h
  exact List.suffix_cons _ _

/-- A token that comes next is one of the tokens. -/
theorem Takes.exists_mem {wanted : Token} {tokens rest : List Lexeme}
    (h : Takes wanted tokens rest) : ∃ lexeme ∈ tokens, lexeme.token = wanted := by
  obtain ⟨span, rfl⟩ := h
  exact ⟨_, List.mem_cons_self, rfl⟩

namespace Parser

open Reading

variable {table : OperatorTable} {tokens rest : List Lexeme} {n size : Nat}

/-- The whole part of a numeral, whatever its sign. -/
def wholePart (value : Float) : Nat :=
  match Number.magnitude value with
  | .finite x => x.floor
  | _ => 0

/-- The whole part of a fraction with bounds that are whole has the same bounds. -/
theorem floor_bounds {x : Number.Binary} {a b : Nat} (hleast : x.atLeast a = true)
    (hmost : x.atMost b = true) : a ≤ x.floor ∧ x.floor ≤ b := by
  have hpos : 0 < x.ratio.denominator := Nat.pow_pos (by decide)
  simp only [Number.Binary.atLeast, Number.Binary.atMost, Number.Ratio.le, Nat.mul_one,
    decide_eq_true_eq] at hleast hmost
  constructor
  · exact (Nat.le_div_iff_mul_le hpos).2 hleast
  · exact Nat.div_le_of_le_mul (Nat.mul_comm _ _ ▸ hmost)

/-- A precedence that is accepted is the whole part of the numeral, and is in range. -/
theorem precedence?_eq_some {value : Float} (h : precedence? value = some n) :
    wholePart value = n ∧ OperatorTable.least ≤ n ∧ n ≤ OperatorTable.greatest := by
  rw [precedence?] at h
  rw [wholePart]
  cases hvalue : Number.magnitude value with
  | finite x =>
    rw [hvalue] at h
    obtain ⟨hrange, hn⟩ := Option.ite_none_right_eq_some.1 h
    obtain rfl := Option.some.inj hn
    simp only [Bool.and_eq_true] at hrange
    exact ⟨rfl, floor_bounds hrange.1.2 hrange.2⟩
  | _ =>
    rw [hvalue] at h
    cases h

/-- A precedence is stated by a number in range, or is the standard one. -/
theorem accepts_precedence : (precedence tokens).Accepts n rest ↔
    (∃ value, Takes (.number value) tokens rest ∧ precedence? value = some n) ∨
      (∀ value more, ¬ Takes (.number value) tokens more) ∧ n = OperatorTable.standard ∧
        rest = tokens := by
  unfold precedence
  split
  · rename_i value span more
    have htakes : Takes (.number value) (⟨.number value, span⟩ :: more) more := ⟨span, rfl⟩
    split
    · rename_i m hm
      rw [accepts_past, accepts_done]
      constructor
      · rintro ⟨rfl, rfl⟩
        exact .inl ⟨value, htakes, hm⟩
      · rintro (⟨value', htakes', hn⟩ | ⟨hnone, -⟩)
        · obtain ⟨heq, rfl⟩ := htakes.unique htakes'
          cases heq
          exact ⟨Option.some.inj (hn.symm.trans hm), rfl⟩
        · exact (hnone value more htakes).elim
    · rename_i hnone
      rw [accepts_fail, false_iff]
      rintro (⟨value', htakes', hn⟩ | ⟨hnumber, -⟩)
      · obtain ⟨heq, rfl⟩ := htakes.unique htakes'
        cases heq
        rw [hnone] at hn
        cases hn
      · exact hnumber value more htakes
  · rename_i hnumber
    rw [accepts_done]
    refine ⟨fun h => .inr ⟨?_, h⟩, ?_⟩
    · rintro value more ⟨span, rfl⟩
      exact hnumber value span more rfl
    · rintro (⟨value, ⟨span, rfl⟩, -⟩ | ⟨-, h⟩)
      · exact (hnumber value span rest rfl).elim
      · exact h

/-- What a signature begins with and consists of. -/
inductive AcceptsPrototype (tokens : List Lexeme) : Prototype → List Lexeme → Prop where
  | plain {name more found rest} : Takes (.identifier name) tokens more →
      (parameters more).Accepts found rest → AcceptsPrototype tokens ⟨name, found, .plain⟩ rest
  | unary {more operator opened found rest} : Takes (.keyword .unaryKeyword) tokens more →
      Takes (.symbol operator) more opened → Token.isOperatorChar operator →
      (parameters opened).Accepts found rest → found.length = 1 →
      AcceptsPrototype tokens ⟨Prototype.unaryName operator, found, .unary⟩ rest
  | binary {more operator stated n opened found rest} :
      Takes (.keyword .binaryKeyword) tokens more → Takes (.symbol operator) more stated →
      Token.isOperatorChar operator → OperatorTable.isBuiltin operator = false →
      (precedence stated).Accepts n opened → (parameters opened).Accepts found rest →
      found.length = 2 →
      AcceptsPrototype tokens ⟨Prototype.binaryName operator, found, .binary n⟩ rest

/-- The signature of a prefix operator is a symbol that may name one, with one parameter. -/
theorem accepts_unaryPrototype {p : Prototype} (h : (unaryPrototype tokens).Accepts p rest) :
    ∃ operator opened found, Takes (.symbol operator) tokens opened ∧
      Token.isOperatorChar operator ∧ (parameters opened).Accepts found rest ∧ found.length = 1 ∧
      p = ⟨Prototype.unaryName operator, found, .unary⟩ := by
  cases tokens with
  | nil => exact (accepts_unexpected.1 h).elim
  | cons first more =>
    rw [unaryPrototype] at h
    split at h
    · exact (accepts_unexpected.1 h).elim
    · rename_i operator hoperator
      obtain ⟨htoken, hvisible⟩ := operator?_eq_some_iff.1 hoperator
      simp only [accepts_past, accepts_andThen, exists_prop] at h
      obtain ⟨found, mid, hfound, h⟩ := h
      split at h
      · rename_i hlength
        obtain ⟨rfl, rfl⟩ := accepts_done.1 h
        exact ⟨operator, more, found, htoken ▸ takes_cons first more, hvisible, hfound, hlength, rfl⟩
      · exact (accepts_fail.1 h).elim

/-- The signature of a binary operator is a symbol that may name one and is not built in, a
precedence and two parameters. -/
theorem accepts_binaryPrototype {p : Prototype} (h : (binaryPrototype tokens).Accepts p rest) :
    ∃ operator stated n opened found, Takes (.symbol operator) tokens stated ∧
      Token.isOperatorChar operator ∧ OperatorTable.isBuiltin operator = false ∧
      (precedence stated).Accepts n opened ∧ (parameters opened).Accepts found rest ∧
      found.length = 2 ∧ p = ⟨Prototype.binaryName operator, found, .binary n⟩ := by
  cases tokens with
  | nil => exact (accepts_unexpected.1 h).elim
  | cons first more =>
    rw [binaryPrototype] at h
    split at h
    · exact (accepts_unexpected.1 h).elim
    · rename_i operator hoperator
      obtain ⟨htoken, hvisible⟩ := operator?_eq_some_iff.1 hoperator
      split at h
      · exact (accepts_unexpected.1 h).elim
      · rename_i hbuiltin
        simp only [accepts_past, accepts_andThen, exists_prop] at h
        obtain ⟨n, opened, hn, found, mid, hfound, h⟩ := h
        split at h
        · rename_i hlength
          obtain ⟨rfl, rfl⟩ := accepts_done.1 h
          exact ⟨operator, more, n, opened, found, htoken ▸ takes_cons first more, hvisible,
            Bool.eq_false_iff.2 hbuiltin, hn, hfound, hlength, rfl⟩
        · exact (accepts_fail.1 h).elim

/-- A signature that is accepted has one of the three forms. -/
theorem acceptsPrototype {p : Prototype} (h : (prototype tokens).Accepts p rest) :
    AcceptsPrototype tokens p rest := by
  unfold prototype at h
  split at h
  · rename_i name span more
    simp only [accepts_past, accepts_andThen, accepts_done, exists_prop] at h
    obtain ⟨found, mid, hfound, rfl, rfl⟩ := h
    exact .plain ⟨span, rfl⟩ hfound
  · rename_i span more
    obtain ⟨operator, opened, found, htakes, hvisible, hfound, hlength, rfl⟩ :=
      accepts_unaryPrototype (accepts_past.1 h)
    exact .unary ⟨span, rfl⟩ htakes hvisible hfound hlength
  · rename_i span more
    obtain ⟨operator, stated, n, opened, found, htakes, hvisible, hbuiltin, hn, hfound, hlength, rfl⟩ :=
      accepts_binaryPrototype (accepts_past.1 h)
    exact .binary ⟨span, rfl⟩ htakes hvisible hbuiltin hn hfound hlength
  · exact (accepts_unexpected.1 h).elim

/-- What a statement begins with and consists of. -/
inductive AcceptsStatement (table : OperatorTable) (tokens : List Lexeme) :
    Statement → List Lexeme → Prop where
  | definition {more p mid body rest} : Takes (.keyword .defKeyword) tokens more →
      (prototype more).Accepts p mid → (expression table mid).Accepts body rest →
      AcceptsStatement table tokens (.definition ⟨p, body⟩) rest
  | declaration {more p rest} : Takes (.keyword .externKeyword) tokens more →
      (prototype more).Accepts p rest → AcceptsStatement table tokens (.declaration p) rest
  | evaluation {body rest} : (∀ more, ¬ Takes (.keyword .defKeyword) tokens more) →
      (expression table tokens).Accepts body rest →
      AcceptsStatement table tokens (.evaluation body) rest

/-- A statement that is accepted has one of the three forms. -/
theorem acceptsStatement {found : Statement} (h : (whole table tokens).Accepts found rest) :
    AcceptsStatement table tokens found rest := by
  rw [whole, accepts_andThen] at h
  obtain ⟨found', mid, hfound, h⟩ := h
  have hdone : found = found' ∧ rest = mid := by
    split at h
    · exact accepts_done.1 h
    · split at h
      · exact accepts_done.1 h
      · exact (accepts_unexpected.1 h).elim
  obtain ⟨rfl, rfl⟩ := hdone
  unfold statement at hfound
  split at hfound
  · rename_i span more
    simp only [accepts_past, accepts_andThen, accepts_done, exists_prop] at hfound
    obtain ⟨p, mid, hp, body, last, hbody, rfl, rfl⟩ := hfound
    exact .definition ⟨span, rfl⟩ hp hbody
  · rename_i span more
    obtain ⟨p, hp, rfl⟩ := accepts_map.1 (accepts_past.1 hfound)
    exact .declaration ⟨span, rfl⟩ hp
  · rename_i hdef hextern
    obtain ⟨body, hbody, rfl⟩ := accepts_map.1 hfound
    refine .evaluation ?_ hbody
    rintro more ⟨span, rfl⟩
    exact hdef span more rfl

/-- Skipping leaves an end piece. -/
theorem resynchronize_suffix (tokens : List Lexeme) : resynchronize tokens <:+ tokens := by
  induction tokens with
  | nil => exact List.suffix_rfl
  | cons first rest ih =>
    unfold resynchronize
    split
    · exact List.suffix_rfl
    · split
      · exact List.suffix_cons _ _
      · exact ih.trans (List.suffix_cons _ _)

/-- The tokens from the next statement on. -/
def fromNext (tokens : List Lexeme) : List Lexeme := tokens.dropWhile (·.token.endsStatement)

/-- A statement begins with the first token that ends none. -/
theorem fromNext_cons {first : Lexeme} (h : first.token.endsStatement = false) (rest : List Lexeme) :
    fromNext (first :: rest) = first :: rest :=
  List.dropWhile_cons_of_neg (by rw [h]; exact Bool.false_ne_true)

/-- The next statement is what is read from its first token on, and an end piece is left. -/
theorem next?_eq_some {progress : Progress tokens} (h : next? table size tokens = some progress) :
    progress.rest <:+ tokens ∧ ∀ found, progress.statement = .ok found →
      ∃ rest, AcceptsStatement table (fromNext tokens) found.value rest := by
  have hstart : fromNext tokens <:+ tokens := List.dropWhile_suffix _
  rw [next?] at h
  split at h
  · cases h
  · split at h
    · rename_i found rest suffix hwhole
      cases h
      refine ⟨(List.drop_suffix 1 rest).trans (suffix.trans hstart), ?_⟩
      rintro _ ⟨⟩
      exact ⟨rest, acceptsStatement ⟨suffix, hwhole⟩⟩
    · rename_i error rest suffix hwhole
      cases h
      exact ⟨(resynchronize_suffix rest).trans (suffix.trans hstart), nofun⟩

/-- A statement that can be read from its first token on is the next one. -/
theorem next?_of_accepts {found : Statement} (hne : fromNext tokens ≠ [])
    (h : (whole table (fromNext tokens)).Accepts found rest) :
    ∃ progress, next? table size tokens = some progress ∧
      progress.statement = .ok ⟨found, spanUpTo (fromNext tokens) rest⟩ ∧
      progress.rest = rest.drop 1 := by
  obtain ⟨suffix, hwhole⟩ := h
  unfold fromNext at hne hwhole
  rw [next?, dif_neg hne]
  split
  · rename_i hwhole'
    cases hwhole.symm.trans hwhole'
    exact ⟨_, rfl, rfl, rfl⟩
  · rename_i hwhole'
    cases hwhole.symm.trans hwhole'

end Parser

end Kaleidoscope
