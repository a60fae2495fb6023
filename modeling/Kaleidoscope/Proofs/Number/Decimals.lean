import Kaleidoscope.Number.Literal
import Kaleidoscope.Number.Text
import Mathlib.Algebra.Order.Field.Power
import Mathlib.Data.List.TakeWhile
import Mathlib.Tactic.FieldSimp
import Mathlib.Tactic.NormNum
import Mathlib.Tactic.Positivity
import Mathlib.Tactic.Ring

/-!
# The values of decimals

Fractions, decimals and magnitudes are compared as rational numbers. The digits of a decimal,
written positionally, spell its value: they can be read back, wherever the point is and however many
zeros stand at either end.
-/

namespace Kaleidoscope.Number

namespace Ratio

/-- The rational number that a fraction stands for. -/
def value (r : Ratio) : ℚ := r.numerator / r.denominator

/-- The denominator of a product with a power is positive. -/
theorem denominator_scaled_pos {base : Nat} (hbase : 0 < base) (n : Nat) (power : Int) :
    0 < (scaled base n power).denominator :=
  Nat.pow_pos hbase

/-- Scaling multiplies by the power, be it negative or not. -/
theorem value_scaled {base : Nat} (hbase : 0 < base) (n : Nat) (power : Int) :
    (scaled base n power).value = n * (base : ℚ) ^ power := by
  have hne : (base : ℚ) ≠ 0 := by positivity
  obtain ⟨k, rfl | rfl⟩ := Int.eq_nat_or_neg power
  · simp [value, scaled]
  · simp [value, scaled, div_eq_mul_inv]

/-- Comparison by cross multiplication compares the rational numbers. -/
theorem le_iff {a b : Ratio} (ha : 0 < a.denominator) (hb : 0 < b.denominator) :
    a.le b = true ↔ a.value ≤ b.value := by
  rw [le, value, value, decide_eq_true_eq, div_le_div_iff₀ (by exact_mod_cast ha)
    (by exact_mod_cast hb)]
  exact_mod_cast Iff.rfl

/-- Strict comparison by cross multiplication compares the rational numbers. -/
theorem lt_iff {a b : Ratio} (ha : 0 < a.denominator) (hb : 0 < b.denominator) :
    a.lt b = true ↔ a.value < b.value := by
  rw [lt, value, value, decide_eq_true_eq, div_lt_div_iff₀ (by exact_mod_cast ha)
    (by exact_mod_cast hb)]
  exact_mod_cast Iff.rfl

end Ratio

namespace Decimal

/-- The rational number that a decimal stands for. -/
def value (d : Decimal) : ℚ := d.digits * 10 ^ d.exponent

/-- The fraction of a decimal stands for the same number. -/
theorem value_ratio (d : Decimal) : d.ratio.value = d.value := by
  rw [ratio, Ratio.value_scaled (by decide)]
  rfl

/-- Moving trailing zeros into the exponent does not change the value. -/
theorem value_strip (digits : Nat) (exponent : Int) :
    (strip digits exponent).value = (Decimal.mk digits exponent).value := by
  fun_induction strip digits exponent with
  | case1 digits exponent h ih =>
    have hdigits : (digits : ℚ) = 10 * (digits / 10 : Nat) := by
      exact_mod_cast (Nat.mul_div_cancel' (Nat.dvd_of_mod_eq_zero h.2)).symm
    rw [ih, value, value, zpow_add_one₀ (by norm_num), hdigits]
    ring
  | case2 => rfl

end Decimal

/-- Digits are worth more the more digits follow. -/
theorem ofDigits_append (front behind : List Char) :
    ofDigits (front ++ behind) = ofDigits front * 10 ^ behind.length + ofDigits behind := by
  induction behind using List.reverseRecOn with
  | nil => simp [ofDigits]
  | append_singleton behind c ih =>
    have hsnoc (digits : List Char) :
        ofDigits (digits ++ [c]) = 10 * ofDigits digits + (c.toNat - '0'.toNat) := by
      simp [ofDigits]
    rw [← List.append_assoc, hsnoc, hsnoc, ih, List.length_append, List.length_singleton, pow_succ]
    ring

/-- Zeros spell zero. -/
theorem ofDigits_zeros (k : Nat) : ofDigits (List.replicate k '0') = 0 := by
  induction k with
  | zero => rfl
  | succ k ih => rw [List.replicate_succ', ofDigits_append, ih]; rfl

/-- The digits of a natural number spell it. -/
theorem ofDigits_toDigits (n : Nat) : ofDigits (Nat.toDigits 10 n) = n :=
  Nat.ofDigitChars_ten_toDigits

/-- The value of digits with a point among them. -/
def spelled (run : List Char) : ℚ :=
  ofDigits (run.filter Char.isDigit) / 10 ^ ((run.dropWhile (· ≠ '.')).drop 1).length

/-- Without a point, the digits are a whole number. -/
theorem spelled_whole {digits : List Char} (h : ∀ c ∈ digits, c.isDigit) :
    spelled digits = ofDigits digits := by
  have hpoint : digits.dropWhile (· ≠ '.') = [] := by
    rw [List.dropWhile_eq_nil_iff]
    intro c hc
    have := h c hc
    rw [decide_eq_true_eq]
    rintro rfl
    exact absurd this (by decide)
  rw [spelled, hpoint, List.filter_eq_self.2 h]
  simp

/-- The digits behind the point are tenths, hundredths and so on. -/
theorem spelled_point {front behind : List Char} (hfront : ∀ c ∈ front, c.isDigit)
    (hbehind : ∀ c ∈ behind, c.isDigit) :
    spelled (front ++ '.' :: behind) = ofDigits (front ++ behind) / 10 ^ behind.length := by
  have hpoint : (front ++ '.' :: behind).dropWhile (· ≠ '.') = '.' :: behind := by
    rw [List.dropWhile_append_of_pos]
    · rfl
    · intro c hc
      have := hfront c hc
      rw [decide_eq_true_eq]
      rintro rfl
      exact absurd this (by decide)
  have hdigits : (front ++ '.' :: behind).filter Char.isDigit = front ++ behind := by
    rw [List.filter_append, List.filter_eq_self.2 hfront,
      List.filter_cons_of_neg (by decide), List.filter_eq_self.2 hbehind]
  rw [spelled, hpoint, hdigits, List.drop_one, List.tail_cons]

namespace Decimal

/-- The characters of a natural number are digits. -/
theorem isDigit_toDigits {n : Nat} {c : Char} (hc : c ∈ Nat.toDigits 10 n) : c.isDigit :=
  Nat.isDigit_of_mem_toDigits (by decide) (by decide) hc

/-- Zeros are digits. -/
theorem isDigit_zeros {k : Nat} {c : Char} (hc : c ∈ List.replicate k '0') : c.isDigit := by
  rw [List.eq_of_mem_replicate hc]
  rfl

/-- A decimal is written as a whole number, or with a point and digits on both sides of it. -/
theorem positional_cases (d : Decimal) :
    (0 ≤ d.exponent ∧ d.positional =
      Nat.toDigits 10 d.digits ++ List.replicate d.exponent.toNat '0') ∨
    ∃ front behind, d.positional = front ++ '.' :: behind ∧ front ≠ [] ∧
      (∀ c ∈ front, c.isDigit) ∧ (∀ c ∈ behind, c.isDigit) ∧
      ofDigits (front ++ behind) = d.digits ∧ d.exponent = -(behind.length : Int) := by
  have hdigit (c : Char) (hc : c ∈ Nat.toDigits 10 d.digits) : c.isDigit := isDigit_toDigits hc
  have hvalue := ofDigits_toDigits d.digits
  simp only [positional]
  generalize Nat.toDigits 10 d.digits = digits at hdigit hvalue ⊢
  split
  · exact .inl ⟨by omega, rfl⟩
  · split
    · rename_i hplaces hlt
      refine .inr ⟨_, _, rfl, ?_, fun c hc => hdigit c (List.mem_of_mem_take hc),
        fun c hc => hdigit c (List.mem_of_mem_drop hc), ?_, ?_⟩
      · rw [Ne, List.take_eq_nil_iff]
        rintro (hzero | rfl)
        · omega
        · exact absurd hlt (Nat.not_lt_zero _)
      · rw [List.take_append_drop, hvalue]
      · rw [List.length_drop]
        omega
    · refine .inr ⟨['0'], _, rfl, List.cons_ne_nil _ _,
        List.forall_mem_singleton.2 (by decide), ?_, ?_, ?_⟩
      · exact List.forall_mem_append.2 ⟨fun c hc => isDigit_zeros hc, hdigit⟩
      · rw [← List.append_assoc, List.singleton_append, ← List.replicate_succ, ofDigits_append,
          ofDigits_zeros, Nat.zero_mul, Nat.zero_add, hvalue]
      · rw [List.length_append, List.length_replicate]
        omega

/-- What is written is the value. -/
theorem spelled_positional (d : Decimal) : spelled d.positional = d.value := by
  rcases positional_cases d with ⟨hexponent, heq⟩ |
    ⟨front, behind, heq, -, hfront, hbehind, hdigits, hexponent⟩
  · have hdigit : ∀ c ∈ Nat.toDigits 10 d.digits ++ List.replicate d.exponent.toNat '0', c.isDigit :=
      List.forall_mem_append.2 ⟨fun c hc => isDigit_toDigits hc, fun c hc => isDigit_zeros hc⟩
    obtain ⟨k, hk⟩ := Int.eq_ofNat_of_zero_le hexponent
    rw [heq, spelled_whole hdigit, ofDigits_append, ofDigits_zeros, ofDigits_toDigits,
      List.length_replicate, value, hk]
    simp
  · rw [heq, spelled_point hfront hbehind, hdigits, value, hexponent, zpow_neg, zpow_natCast,
      div_eq_mul_inv]

/-- A written decimal begins with a digit and consists of digits and points. -/
theorem literal_positional (d : Decimal) :
    (∃ first rest, d.positional = first :: rest ∧ first.isDigit) ∧
      ∀ c ∈ d.positional, isLiteralChar c := by
  have hliteral {c : Char} (hc : c.isDigit) : isLiteralChar c := by
    rw [isLiteralChar, hc, Bool.true_or]
  rcases positional_cases d with ⟨-, heq⟩ | ⟨front, behind, heq, hne, hfront, hbehind, -, -⟩
  · obtain ⟨first, rest, hdigits⟩ := List.exists_cons_of_ne_nil (@Nat.toDigits_ne_nil d.digits 10)
    refine ⟨⟨first, _, by rw [heq, hdigits, List.cons_append], ?_⟩, ?_⟩
    · exact isDigit_toDigits (hdigits ▸ List.mem_cons_self)
    · rw [heq]
      exact List.forall_mem_append.2 ⟨fun c hc => hliteral (isDigit_toDigits hc),
        fun c hc => hliteral (isDigit_zeros hc)⟩
  · obtain ⟨first, rest, rfl⟩ := List.exists_cons_of_ne_nil hne
    refine ⟨⟨first, _, heq, hfront first List.mem_cons_self⟩, ?_⟩
    rw [heq]
    exact List.forall_mem_append.2 ⟨fun c hc => hliteral (hfront c hc),
      List.forall_mem_cons.2 ⟨rfl, fun c hc => hliteral (hbehind c hc)⟩⟩

end Decimal

end Kaleidoscope.Number
