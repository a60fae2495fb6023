import Kaleidoscope.Proofs.Number.Decimals
import Mathlib.Tactic.Linarith

/-!
# Different numbers have different texts

The text of a number is a decimal that rounds to it: it lies between the points halfway to the
neighbours, and on one of these only if the mantissa is even. Such intervals of different numbers
have no point in common, for where they meet one of the two mantissas is odd. So the text tells
which number is meant.
-/

namespace Kaleidoscope.Number

namespace Binary

/-- What the fields of a number can hold. Only the least exponent has mantissas that do not use all
their places, and only the least mantissa that does has a number below it that is nearer than the
one above. -/
structure Normal (x : Binary) : Prop where
  mantissa_lt : x.mantissa < 2 * binade
  exponent_le : -1074 ≤ x.exponent
  binade_le : x.exponent ≠ -1074 → binade ≤ x.mantissa
  narrow : x.narrowBelow = (decide (x.mantissa = binade) && decide (x.exponent ≠ -1074))

/-- The rational number that a magnitude stands for. -/
def value (x : Binary) : ℚ := x.mantissa * 2 ^ x.exponent

/-- The distance of the halfway point below from zero, in quarters of the last place. -/
def lowerQuarters (x : Binary) : Nat :=
  if x.narrowBelow then 4 * x.mantissa - 1 else 4 * x.mantissa - 2

/-- The distance of the halfway point above from zero, in quarters of the last place. -/
def upperQuarters (x : Binary) : Nat := 4 * x.mantissa + 2

/-- A quarter of the last place. -/
def quarter (x : Binary) : ℚ := 2 ^ (x.exponent - 2)

variable {x y : Binary} {d d' : Decimal}

/-- A quarter of the last place is positive. -/
theorem quarter_pos (x : Binary) : 0 < x.quarter := by
  unfold quarter
  positivity

/-- A magnitude is four times its mantissa in quarters of the last place. -/
theorem value_eq (x : Binary) : x.value = (4 * x.mantissa : Nat) * x.quarter := by
  rw [value, quarter, zpow_sub₀ (by norm_num)]
  push_cast
  ring

/-- The halfway point below, in quarters of the last place. -/
theorem value_lowerEnd (x : Binary) : x.lowerEnd.value = x.lowerQuarters * x.quarter :=
  Ratio.value_scaled (by decide) _ _

/-- The halfway point above, in quarters of the last place. -/
theorem value_upperEnd (x : Binary) : x.upperEnd.value = x.upperQuarters * x.quarter :=
  Ratio.value_scaled (by decide) _ _

/-- A decimal reads back if it lies between the halfway points. These themselves read back where the
mantissa is even. -/
theorem readsBack_iff : x.readsBack d = true ↔
    if x.mantissa % 2 = 0 then
      x.lowerQuarters * x.quarter ≤ d.value ∧ d.value ≤ x.upperQuarters * x.quarter
    else x.lowerQuarters * x.quarter < d.value ∧ d.value < x.upperQuarters * x.quarter := by
  have hdecimal : 0 < d.ratio.denominator := Ratio.denominator_scaled_pos (by decide) _ _
  have hlower : 0 < x.lowerEnd.denominator := Ratio.denominator_scaled_pos (by decide) _ _
  have hupper : 0 < x.upperEnd.denominator := Ratio.denominator_scaled_pos (by decide) _ _
  rw [readsBack, ← value_lowerEnd, ← value_upperEnd, ← Decimal.value_ratio]
  split
  · rw [Bool.and_eq_true, Ratio.le_iff hlower hdecimal, Ratio.le_iff hdecimal hupper]
  · rw [Bool.and_eq_true, Ratio.lt_iff hlower hdecimal, Ratio.lt_iff hdecimal hupper]

/-- Whether a decimal reads back depends on its value only. -/
theorem readsBack_congr (h : d.value = d'.value) (hd : x.readsBack d = true) :
    x.readsBack d' = true := by
  rw [readsBack_iff] at hd ⊢
  rwa [← h]

/-- The halfway point below a positive magnitude lies below it. -/
theorem lowerQuarters_lt (hpos : 0 < x.mantissa) : x.lowerQuarters < 4 * x.mantissa := by
  unfold lowerQuarters
  split <;> omega

/-- The value itself reads back. -/
theorem readsBack_of_value_eq (hpos : 0 < x.mantissa) (h : d.value = x.value) :
    x.readsBack d = true := by
  have hlower : x.lowerQuarters * x.quarter < d.value := by
    rw [h, value_eq, mul_lt_mul_iff_left₀ x.quarter_pos]
    exact_mod_cast lowerQuarters_lt hpos
  have hupper : d.value < x.upperQuarters * x.quarter := by
    rw [h, value_eq, mul_lt_mul_iff_left₀ x.quarter_pos, upperQuarters]
    push_cast
    linarith
  rw [readsBack_iff]
  split
  · exact ⟨hlower.le, hupper.le⟩
  · exact ⟨hlower, hupper⟩

/-- All digits of a value make up the value. -/
theorem value_exact (x : Binary) : x.exact.value = x.value := by
  obtain ⟨k, hk | hk⟩ := Int.eq_nat_or_neg x.exponent
  · simp [exact, Decimal.value, value, hk]
  · have hten : (10 : ℚ) ^ k = 2 ^ k * 5 ^ k := by rw [← mul_pow]; norm_num
    have hmin : min (-(k : Int)) 0 = -(k : Int) := by omega
    simp only [exact, Decimal.value, value, hk, hmin, Int.toNat_neg_natCast, neg_neg, Int.toNat_natCast,
      zpow_neg, zpow_natCast]
    push_cast
    rw [hten]
    field_simp
    simp

/-- What is found on a grid reads back. -/
theorem readsBack_of_onGrid {exponent : Int} (h : x.onGrid exponent = some d) :
    x.readsBack d = true := by
  unfold onGrid at h
  simp only at h
  split at h
  · rename_i hlower hupper
    split at h
    · cases h
      exact hupper
    · cases h
      exact hlower
  · rename_i hlower _
    cases h
    exact hlower
  · rename_i _ hupper
    cases h
    exact hupper
  · cases h

/-- The shortest decimal of a positive value reads back. -/
theorem readsBack_shortest (hpos : 0 < x.mantissa) : x.readsBack x.shortest = true := by
  refine readsBack_congr (Decimal.value_strip _ _).symm ?_
  cases hfound : (List.range 17).findSome? fun n => x.onGrid (x.scale - (n + 1 : Nat)) with
  | none => exact readsBack_of_value_eq hpos (value_exact x)
  | some d =>
    obtain ⟨n, -, hgrid⟩ := List.exists_of_findSome?_eq_some hfound
    exact readsBack_of_onGrid hgrid

/-- The interval of a number lies below that of a greater one, and where they meet one mantissa is
odd. -/
theorem upperQuarters_le (hx : x.Normal) (hy : y.Normal) {k : Nat}
    (hexponent : y.exponent = x.exponent + k) (h : k = 0 → x.mantissa < y.mantissa) :
    x.upperQuarters < y.lowerQuarters * 2 ^ k ∨ x.upperQuarters = y.lowerQuarters * 2 ^ k ∧
      ¬ (x.mantissa % 2 = 0 ∧ y.mantissa % 2 = 0) := by
  have hlower : 4 * y.mantissa - 2 ≤ y.lowerQuarters := by
    unfold lowerQuarters
    split <;> omega
  cases k with
  | zero =>
    rw [pow_zero, Nat.mul_one, upperQuarters]
    have := h rfl
    omega
  | succ k =>
    have hy' : y.exponent ≠ -1074 := by
      have := hx.exponent_le
      omega
    have hmantissa := hy.binade_le hy'
    -- The least mantissa of the higher exponent has the nearer number below it.
    have hleast : 4 * binade - 1 ≤ y.lowerQuarters := by
      by_cases heq : y.mantissa = binade
      · have hnarrow : y.narrowBelow = true := by
          rw [hy.narrow, decide_eq_true heq, decide_eq_true hy']
          rfl
        rw [lowerQuarters, if_pos hnarrow, heq]
      · omega
    have hpow : 1 ≤ 2 ^ k := Nat.one_le_two_pow
    have hscaled : y.lowerQuarters * 2 ≤ y.lowerQuarters * 2 ^ (k + 1) :=
      Nat.mul_le_mul_left _ (by omega)
    have := hx.mantissa_lt
    have hbinade : binade % 2 = 0 := by decide
    rw [upperQuarters]
    omega

/-- No decimal reads back to a number and to a greater one. -/
theorem not_readsBack_of_lt (hx : x.Normal) (hy : y.Normal) (hxd : x.readsBack d = true)
    (h : x.exponent < y.exponent ∨ x.exponent = y.exponent ∧ x.mantissa < y.mantissa) :
    ¬ y.readsBack d = true := by
  intro hyd
  obtain ⟨k, hk⟩ := Int.eq_ofNat_of_zero_le (show 0 ≤ y.exponent - x.exponent by omega)
  have hquarter : y.quarter = 2 ^ k * x.quarter := by
    rw [quarter, quarter, ← zpow_natCast, ← zpow_add₀ (by norm_num)]
    congr 1
    omega
  have hx' : d.value ≤ x.upperQuarters * x.quarter ∧
      (x.mantissa % 2 ≠ 0 → d.value < x.upperQuarters * x.quarter) := by
    have := readsBack_iff.1 hxd
    split at this
    · exact ⟨this.2, fun hodd => absurd ‹_› hodd⟩
    · exact ⟨this.2.le, fun _ => this.2⟩
  have hy' : (y.lowerQuarters * 2 ^ k : Nat) * x.quarter ≤ d.value ∧
      (y.mantissa % 2 ≠ 0 → (y.lowerQuarters * 2 ^ k : Nat) * x.quarter < d.value) := by
    have hlower : ((y.lowerQuarters * 2 ^ k : Nat) : ℚ) * x.quarter = y.lowerQuarters * y.quarter := by
      rw [hquarter]
      push_cast
      ring
    have := readsBack_iff.1 hyd
    rw [hlower]
    split at this
    · exact ⟨this.1, fun hodd => absurd ‹_› hodd⟩
    · exact ⟨this.1.le, fun _ => this.1⟩
  rcases upperQuarters_le hx hy (k := k) (by omega) (by omega) with hlt | ⟨heq, hodd⟩
  · have : (x.upperQuarters : ℚ) * x.quarter < (y.lowerQuarters * 2 ^ k : Nat) * x.quarter :=
      (mul_lt_mul_iff_left₀ x.quarter_pos).2 (by exact_mod_cast hlt)
    linarith [hx'.1, hy'.1]
  · rw [heq] at hx'
    rcases not_and_or.1 hodd with hxodd | hyodd
    · exact absurd (hx'.2 hxodd) (not_lt.2 hy'.1)
    · exact absurd (hy'.2 hyodd) (not_lt.2 hx'.1)

/-- A decimal reads back to one number at most. -/
theorem readsBack_unique (hx : x.Normal) (hy : y.Normal) (hxd : x.readsBack d = true)
    (hyd : y.readsBack d = true) : x = y := by
  have hexponent : x.exponent = y.exponent := by
    rcases lt_trichotomy x.exponent y.exponent with h | h | h
    · exact (not_readsBack_of_lt hx hy hxd (.inl h) hyd).elim
    · exact h
    · exact (not_readsBack_of_lt hy hx hyd (.inl h) hxd).elim
  have hmantissa : x.mantissa = y.mantissa := by
    rcases lt_trichotomy x.mantissa y.mantissa with h | h | h
    · exact (not_readsBack_of_lt hx hy hxd (.inr ⟨hexponent, h⟩) hyd).elim
    · exact h
    · exact (not_readsBack_of_lt hy hx hyd (.inr ⟨hexponent.symm, h⟩) hxd).elim
  have hnarrow : x.narrowBelow = y.narrowBelow := by rw [hx.narrow, hy.narrow, hexponent, hmantissa]
  cases x
  cases y
  cases hexponent
  cases hmantissa
  cases hnarrow
  rfl

/-- What is written for a magnitude is a decimal that reads back. -/
theorem exists_decimal (x : Binary) :
    ∃ d : Decimal, x.positional = d.positional ∧ x.readsBack d = true := by
  by_cases hzero : x.mantissa = 0
  · refine ⟨⟨0, 0⟩, by rw [positional, if_pos hzero]; rfl, readsBack_iff.2 ?_⟩
    have hupper : 0 ≤ x.upperQuarters * x.quarter := by
      have := x.quarter_pos
      positivity
    rw [hzero, if_pos rfl]
    simpa [lowerQuarters, hzero, Decimal.value] using hupper
  · exact ⟨x.shortest, by rw [positional, if_neg hzero],
      readsBack_shortest (Nat.pos_of_ne_zero hzero)⟩

/-- What is written for a magnitude tells which one it is. -/
theorem positional_injective (hx : x.Normal) (hy : y.Normal) (h : x.positional = y.positional) :
    x = y := by
  obtain ⟨d, hd, hxd⟩ := exists_decimal x
  obtain ⟨d', hd', hyd⟩ := exists_decimal y
  have hvalue : d'.value = d.value := by
    rw [← Decimal.spelled_positional, ← Decimal.spelled_positional, ← hd, ← hd', h]
  exact readsBack_unique hx hy hxd (readsBack_congr hvalue hyd)

end Binary

variable {x y : Float}

/-- The fields of a finite number fit together. -/
theorem normal_of_magnitude {value : Binary} (h : magnitude x = .finite value) : value.Normal := by
  have hfraction : x.toBits.toNat % binade < binade := Nat.mod_lt _ (by decide)
  unfold magnitude at h
  simp only at h
  split at h
  · split at h <;> cases h
  · split at h
    · cases h
      refine ⟨by dsimp only; omega, Int.le_refl _, fun hne => (hne rfl).elim, ?_⟩
      simp
    · rename_i hfull hempty
      cases h
      generalize x.toBits.toNat / binade % 2048 = field at hempty ⊢
      refine ⟨by dsimp only; omega, by dsimp only; omega, fun _ => Nat.le_add_right _ _, ?_⟩
      have hleast : (field : Int) - 1075 ≠ -1074 ↔ field ≠ 1 := by omega
      simp only [decide_eq_decide.2 hleast, Nat.add_eq_left]

/-- The bits of a number are its own. -/
theorem eq_of_toBits_eq (h : x.toBits.toNat = y.toBits.toNat) : x = y := by
  obtain ⟨⟨bits, valid⟩⟩ := x
  obtain ⟨⟨bits', valid'⟩⟩ := y
  obtain rfl : bits = bits' := UInt64.toNat_inj.1 h
  rfl

/-- The bits of a number are those of its sign, its exponent field and its fraction. -/
theorem toBits_eq (x : Float) : x.toBits.toNat =
    ((if isNegative x then 2048 else 0) + x.toBits.toNat / binade % 2048) * binade +
      x.toBits.toNat % binade := by
  have hlt : x.toBits.toNat < 2 ^ 64 := x.toBits.toNat_lt
  have hsign : isNegative x = decide (x.toBits.toNat / 2 ^ 63 % 2 = 1) := by
    rw [isNegative, Nat.testBit_eq_decide_div_mod_eq]
  rw [hsign]
  simp only [decide_eq_true_eq, show binade = 2 ^ 52 from rfl]
  split <;> omega

/-- A finite number can be told from its magnitude and its sign. -/
theorem eq_of_magnitude_eq {value : Binary} (hx : magnitude x = .finite value)
    (hy : magnitude y = .finite value) (hsign : isNegative x = isNegative y) : x = y := by
  have hfields {x : Float} (h : magnitude x = .finite value) :
      x.toBits.toNat % binade = value.mantissa % binade ∧
      x.toBits.toNat / binade % 2048 =
        if value.mantissa < binade then 0 else (value.exponent + 1075).toNat := by
    have hfraction : x.toBits.toNat % binade < binade := Nat.mod_lt _ (by decide)
    unfold magnitude at h
    simp only at h
    split at h
    · split at h <;> cases h
    · split at h
      · rename_i hempty
        cases h
        dsimp only
        rw [if_pos hfraction, Nat.mod_mod]
        exact ⟨rfl, hempty⟩
      · cases h
        dsimp only
        rw [if_neg (by omega), Nat.add_mod_left, Nat.mod_mod]
        exact ⟨rfl, by omega⟩
  apply eq_of_toBits_eq
  rw [toBits_eq x, toBits_eq y, (hfields hx).1, (hfields hx).2, (hfields hy).1, (hfields hy).2, hsign]

/-- The number is neither infinite nor none at all. -/
def IsFinite (x : Float) : Prop := ∃ value, magnitude x = .finite value

/-- A number is finite unless all places of its exponent field are set. -/
theorem isFinite_iff : IsFinite x ↔ x.toBits.toNat / binade % 2048 ≠ 2047 := by
  unfold IsFinite magnitude
  simp only
  split
  · split <;> simp_all
  · split <;> simp_all

instance : Decidable (IsFinite x) := decidable_of_iff _ isFinite_iff.symm

/-- A finite number is written as a decimal, behind its sign. -/
theorem characters_finite {value : Binary} (h : magnitude x = .finite value) :
    characters x = (if isNegative x then ['-'] else []) ++ value.positional := by
  rw [characters, h]

/-- A decimal begins with a digit and consists of digits and points. -/
theorem exists_digit {value : Binary} : ∃ first rest, value.positional = first :: rest ∧
    first.isDigit ∧ ∀ c ∈ value.positional, isLiteralChar c := by
  obtain ⟨d, heq, -⟩ := value.exists_decimal
  obtain ⟨⟨first, rest, hcons, hfirst⟩, hall⟩ := d.literal_positional
  rw [heq]
  exact ⟨first, rest, hcons, hfirst, hall⟩

/-- Different finite numbers have different texts. -/
theorem text_injective (hx : IsFinite x) (hy : IsFinite y) (h : text x = text y) : x = y := by
  obtain ⟨a, ha⟩ := hx
  obtain ⟨b, hb⟩ := hy
  have hcharacters : characters x = characters y := by
    rw [← String.toList_ofList (l := characters x), ← String.toList_ofList (l := characters y)]
    exact congrArg String.toList h
  rw [characters_finite ha, characters_finite hb] at hcharacters
  obtain ⟨first, rest, hfirst, hdigit, -⟩ := @exists_digit a
  obtain ⟨first', rest', hfirst', hdigit', -⟩ := @exists_digit b
  have hsign : isNegative x = isNegative y := by
    cases hxsign : isNegative x <;> cases hysign : isNegative y
    · rfl
    · rw [hxsign, hysign, hfirst] at hcharacters
      cases hcharacters
      exact absurd hdigit (by decide)
    · rw [hxsign, hysign, hfirst'] at hcharacters
      cases hcharacters
      exact absurd hdigit' (by decide)
    · rfl
  rw [hsign, List.append_cancel_left_eq] at hcharacters
  obtain rfl := Binary.positional_injective (normal_of_magnitude ha) (normal_of_magnitude hb) hcharacters
  exact eq_of_magnitude_eq ha hb hsign

/-- Infinity has all places of its exponent field set, and no fraction. -/
theorem fields_of_infinite (h : magnitude x = .infinite) :
    x.toBits.toNat / binade % 2048 = 2047 ∧ x.toBits.toNat % binade = 0 := by
  unfold magnitude at h
  simp only at h
  split at h
  · split at h
    · exact ⟨‹_›, ‹_›⟩
    · cases h
  · split at h <;> cases h

/-- Two infinities of the same sign are the same. -/
theorem eq_of_infinite (hx : magnitude x = .infinite) (hy : magnitude y = .infinite)
    (hsign : isNegative x = isNegative y) : x = y := by
  obtain ⟨hxfield, hxfraction⟩ := fields_of_infinite hx
  obtain ⟨hyfield, hyfraction⟩ := fields_of_infinite hy
  apply eq_of_toBits_eq
  rw [toBits_eq x, toBits_eq y, hxfield, hyfield, hxfraction, hyfraction, hsign]

/-- What is no number always has the same bits. -/
theorem bits_of_nan (h : magnitude x = .nan) :
    x.toBits.toBitVec = Float.Model.UnpackedFloat.packedNaN .binary64 := by
  unfold magnitude at h
  simp only at h
  split at h
  · rename_i hfield
    change x.toModel.toBits.toNat / 2 ^ 52 % 2048 = 2047 at hfield
    split at h
    · cases h
    · rename_i hfraction
      change ¬ x.toModel.toBits.toNat % 2 ^ 52 = 0 at hfraction
      refine x.toModel.valid.eq_packedNaN (BitVec.toNat_inj.1 ?_) fun hzero => hfraction ?_
      · simpa [Float.Model.UnpackedFloat.unpackExponent, Nat.shiftRight_eq_div_pow] using hfield
      · simpa [Float.Model.UnpackedFloat.unpackMantissa] using congrArg BitVec.toNat hzero
  · split at h <;> cases h

/-- An infinite number is written by its sign and a word. -/
theorem characters_infinite (h : magnitude x = .infinite) :
    characters x = (if isNegative x then ['-'] else []) ++ ['i', 'n', 'f'] := by
  rw [characters, h]

/-- What is not a number is written by a word. -/
theorem characters_nan (h : magnitude x = .nan) : characters x = ['N', 'a', 'N'] := by
  rw [characters, h]

/-- The text of a finite number has only digits, points and a sign in it. -/
theorem notMem_characters_finite {value : Binary} (h : magnitude x = .finite value) {c : Char}
    (hliteral : isLiteralChar c = false) (hsign : c ≠ '-') : c ∉ characters x := by
  obtain ⟨-, -, -, -, hall⟩ := @exists_digit value
  rw [characters_finite h, List.mem_append, not_or]
  constructor
  · split
    · exact fun hmem => hsign (List.mem_singleton.1 hmem)
    · exact List.not_mem_nil
  · intro hmem
    rw [hall c hmem] at hliteral
    cases hliteral

/-- The letter `i` stands in the text of infinite numbers only. -/
theorem mem_characters_iff_infinite : 'i' ∈ characters x ↔ magnitude x = .infinite := by
  cases h : magnitude x with
  | finite value => simpa using notMem_characters_finite h rfl (by decide)
  | infinite => simp [characters_infinite h]
  | nan => simp [characters_nan h]

/-- The letter `N` stands only in the text of what is not a number. -/
theorem mem_characters_iff_nan : 'N' ∈ characters x ↔ magnitude x = .nan := by
  cases h : magnitude x with
  | finite value => simpa using notMem_characters_finite h rfl (by decide)
  | infinite =>
    rw [characters_infinite h]
    cases isNegative x <;> simp
  | nan => simp [characters_nan h]

/-- Different numbers have different texts, the infinite ones and what is no number included. -/
theorem eq_of_text_eq (h : text x = text y) : x = y := by
  have hcharacters : characters x = characters y := by
    rw [← String.toList_ofList (l := characters x), ← String.toList_ofList (l := characters y)]
    exact congrArg String.toList h
  have hinfinite : magnitude x = .infinite ↔ magnitude y = .infinite := by
    rw [← mem_characters_iff_infinite, hcharacters, mem_characters_iff_infinite]
  have hnan : magnitude x = .nan ↔ magnitude y = .nan := by
    rw [← mem_characters_iff_nan, hcharacters, mem_characters_iff_nan]
  cases hx : magnitude x with
  | infinite =>
    have hy := hinfinite.1 hx
    rw [characters_infinite hx, characters_infinite hy, List.append_cancel_right_eq] at hcharacters
    refine eq_of_infinite hx hy ?_
    cases hxsign : isNegative x <;> cases hysign : isNegative y <;> simp_all
  | nan =>
    have hbits := (bits_of_nan hx).trans (bits_of_nan (hnan.1 hx)).symm
    exact eq_of_toBits_eq (congrArg BitVec.toNat hbits)
  | finite value =>
    refine text_injective ⟨value, hx⟩ ?_ h
    cases hy : magnitude y with
    | finite value' => exact ⟨value', hy⟩
    | infinite => exact nomatch hx.symm.trans (hinfinite.2 hy)
    | nan => exact nomatch hx.symm.trans (hnan.2 hy)

end Kaleidoscope.Number
