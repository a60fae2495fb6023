import Kaleidoscope.Syntax
import Kaleidoscope.Token
import Mathlib.Tactic.Basic

/-!
# Signatures that a program can give rise to

A plain function is called by a word, a function behind an operator by a word and a symbol, and a
bare expression by a name that is neither. So only the signature of a binary operator has the name
of the function behind one.
-/

namespace Kaleidoscope

namespace Prototype

/-- The signatures that a program can give rise to. -/
inductive Spoken : Prototype → Prop where
  | plain {name parameters} : (∀ c ∈ name.toList, c.isAlphanum) → Spoken ⟨name, parameters, .plain⟩
  | anonymous : Spoken .anonymous
  | unary {operator parameters} : Spoken ⟨unaryName operator, parameters, .unary⟩
  | binary {operator n parameters} : Token.isOperatorChar operator →
      OperatorTable.isBuiltin operator = false → OperatorTable.least ≤ n →
      n ≤ OperatorTable.greatest → parameters.length = 2 →
      Spoken ⟨binaryName operator, parameters, .binary n⟩

/-- The precedence that a signature gives to a symbol. -/
def precedenceOf? (symbol : Char) (p : Prototype) : Option Nat :=
  match p.role with
  | .binary n => if p.name = binaryName symbol then some n else none
  | _ => none

/-- The name of a binary operator is a word and its symbol. -/
theorem toList_binaryName (operator : Char) :
    (binaryName operator).toList = ['b', 'i', 'n', 'a', 'r', 'y', operator] := by
  simp [binaryName]

/-- Different operators have different functions behind them. -/
theorem binaryName_inj {a b : Char} : binaryName a = binaryName b ↔ a = b := by
  rw [← String.toList_inj, toList_binaryName, toList_binaryName]
  simp

/-- The function of a bare expression is behind no operator. -/
theorem anonymousName_ne (symbol : Char) : anonymousName ≠ binaryName symbol := by
  rw [Ne, ← String.toList_inj, toList_binaryName]
  simp [anonymousName]

/-- An operator is no letter and no digit. -/
theorem isAlphanum_eq_false {symbol : Char} (h : Token.isOperatorChar symbol) :
    symbol.isAlphanum = false := by
  simp only [Token.isOperatorChar, Bool.and_eq_true, Bool.not_eq_true'] at h
  refine Bool.eq_false_iff.mpr fun hascii => ?_
  rw [Text.isAlphanumeric_of_isAlphanum hascii] at h
  cases h.1.1.2

/-- Only the signature of a binary operator has the name of the function behind one. -/
theorem Spoken.of_name_eq {p : Prototype} (h : p.Spoken) {symbol : Char}
    (hsymbol : Token.isOperatorChar symbol) (hname : p.name = binaryName symbol) : p.arity = 2 := by
  have hlist : p.name.toList = ['b', 'i', 'n', 'a', 'r', 'y', symbol] :=
    hname ▸ toList_binaryName symbol
  cases h with
  | plain hwords =>
    have := hwords symbol (by rw [hlist]; simp)
    rw [isAlphanum_eq_false hsymbol] at this
    cases this
  | anonymous => exact (anonymousName_ne symbol hname).elim
  | unary => simp [unaryName] at hlist
  | binary _ _ _ _ hlength => exact hlength

/-- What a signature gives a precedence to is an operator that is not built in, and the precedence
is in range. -/
theorem Spoken.precedenceOf?_eq_some {p : Prototype} (h : p.Spoken) {symbol : Char} {n : Nat}
    (hn : p.precedenceOf? symbol = some n) :
    p.name = binaryName symbol ∧ Token.isOperatorChar symbol ∧
      OperatorTable.isBuiltin symbol = false ∧ OperatorTable.least ≤ n ∧
      n ≤ OperatorTable.greatest := by
  cases h with
  | binary hvisible hbuiltin hleast hgreatest =>
    obtain ⟨hname, heq⟩ := Option.ite_none_right_eq_some.1 hn
    obtain rfl := binaryName_inj.1 hname
    cases heq
    exact ⟨rfl, hvisible, hbuiltin, hleast, hgreatest⟩
  | _ => cases hn

end Prototype

end Kaleidoscope
