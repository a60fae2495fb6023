import Kaleidoscope.Machine.Frame
import Kaleidoscope.Proofs.Evaluation

/-!
# How numbers compare

Two numbers stand in one of three orders, or in none if one of them is not a number. The machine
puts its comparisons together from what it can ask for; here they are said in terms of these four
cases.
-/

namespace Kaleidoscope

open Float.Model (UnpackedFloat)

/-- Exchanging two numbers turns their order around. -/
theorem unpacked_compare_swap (a b : UnpackedFloat) :
    b.compare a = (a.compare b).map Ordering.swap := by
  cases a with
  | notANumber => cases b with
    | finite sign => cases sign <;> rfl
    | infinity sign => cases sign <;> rfl
    | _ => rfl
  | infinity s => cases b with
    | finite sign => cases s <;> cases sign <;> rfl
    | infinity sign => cases s <;> cases sign <;> rfl
    | _ => cases s <;> rfl
  | zero s => cases b with
    | finite sign => cases sign <;> rfl
    | infinity sign => cases sign <;> rfl
    | _ => rfl
  | finite s m e hm => cases b with
    | finite s' m' e' hm' =>
      have hswap : (compare e' e).then (compare m' m) =
          ((compare e e').then (compare m m')).swap := by
        rw [Ordering.swap_then, ← Std.OrientedOrd.eq_swap, ← Std.OrientedOrd.eq_swap]
      cases s with
      | negative => cases s' with
        | negative => exact congrArg (fun o => some (Ordering.swap o)) hswap
        | positive => rfl
      | positive => cases s' with
        | negative => rfl
        | positive => exact congrArg some hswap
    | infinity sign => cases s <;> cases sign <;> rfl
    | _ => cases s <;> rfl

/-- Two numbers have no order exactly if one of them is not a number. -/
theorem unpacked_compare_isNone (a b : UnpackedFloat) :
    (a.compare b).isNone = (a.isNaN || b.isNaN) := by
  cases a with
  | notANumber => cases b <;> rfl
  | infinity s => cases b with
    | finite sign => cases s <;> rfl
    | _ => cases s <;> rfl
  | zero s => cases b with
    | finite sign => cases sign <;> rfl
    | infinity sign => cases sign <;> rfl
    | _ => rfl
  | finite s => cases b with
    | finite sign => cases s <;> cases sign <;> rfl
    | infinity sign => cases s <;> cases sign <;> rfl
    | _ => cases s <;> rfl

/-- The order of two numbers, if they have one. -/
def order (x y : Float) : Option Ordering := x.toModel.unpack.compare y.toModel.unpack

/-- Exchanging two numbers turns their order around. -/
theorem order_swap (x y : Float) : order y x = (order x y).map Ordering.swap :=
  unpacked_compare_swap _ _

/-- Numbers without an order are those that are none. -/
theorem order_eq_none_iff (x y : Float) : order x y = none ↔ (x.isNaN || y.isNaN) = true :=
  Option.isNone_iff_eq_none.symm.trans (Bool.eq_iff_iff.1 (unpacked_compare_isNone _ _))

/-- A number is less than another one if that is their order. -/
theorem decide_lt_eq (x y : Float) : decide (x < y) = (order x y == some .lt) :=
  Bool.eq_iff_iff.2 (decide_eq_true_iff.trans decide_eq_true_iff)

/-- A number is at most another one if it is less or equal. -/
theorem decide_le_eq (x y : Float) : decide (x ≤ y) = (order x y).any Ordering.isLE :=
  Bool.eq_iff_iff.2 (decide_eq_true_iff.trans decide_eq_true_iff)

/-- Two numbers are equal if that is their order. -/
theorem beq_eq (x y : Float) : (x == y) = (order x y == some .eq) := rfl

/-- Zero is a number. -/
theorem isNaN_zero : (0 : Float).isNaN = false := by decide

namespace Evaluation

open Machine (Frame)

/-- The machine takes a number for a truth exactly if it is ordered and different from zero. -/
theorem compare_orderedAndDistinct (x : Float) :
    Frame.compare .orderedAndDistinct x 0 = holds x := by
  simp only [Frame.compare, holds, gt_iff_lt, decide_lt_eq, order_swap x 0, beq_eq]
  have h := order_eq_none_iff x 0
  rw [isNaN_zero, Bool.or_false] at h
  cases horder : order x 0 with
  | none =>
    rw [h.1 horder]
    rfl
  | some o =>
    have hnan : x.isNaN = false := by
      rw [← Bool.not_eq_true, ← h, horder]
      simp
    rw [hnan]
    cases o <;> rfl

/-- The machine takes one number for less than another one exactly if it is or if there is no
order. -/
theorem compare_unorderedOrLess (x y : Float) :
    Frame.compare .unorderedOrLess x y = less x y := by
  simp only [Frame.compare, less, ge_iff_le, decide_le_eq, order_swap x y, decide_lt_eq]
  cases horder : order x y with
  | none =>
    rw [(order_eq_none_iff x y).1 horder]
    rfl
  | some o =>
    have hnan : (x.isNaN || y.isNaN) = false := by
      rw [← Bool.not_eq_true, ← order_eq_none_iff, horder]
      simp
    rw [hnan]
    cases o <;> rfl

end Evaluation

end Kaleidoscope
