import Kaleidoscope.Machine
import Mathlib.Data.List.Forall2

/-!
# Registers

What a register holds determines what an operation on it gives. A register that is assigned holds
the new value, and the registers before it are kept.
-/

namespace Kaleidoscope.Machine.Frame

open Ssa (Instruction Operation ValueId)

variable {f g h : Frame}

/-- A register holds a value. -/
def Holds (f : Frame) (v : ValueId) (x : Value) : Prop := f.registers[v.index]? = some (some x)

/-- The first registers are the same in both frames. -/
def Keeps (count : Nat) (f g : Frame) : Prop := ∀ i < count, g.registers[i]? = f.registers[i]?

/-- A frame has its own registers. -/
theorem Keeps.refl (count : Nat) (f : Frame) : Keeps count f f := fun _ _ => rfl

/-- Registers that are kept twice are kept. -/
theorem Keeps.trans {count : Nat} (hfg : Keeps count f g) (hgh : Keeps count g h) :
    Keeps count f h :=
  fun i hi => (hgh i hi).trans (hfg i hi)

/-- Where the first registers are kept, fewer of them are. -/
theorem Keeps.mono {count fewer : Nat} (hfg : Keeps count f g) (hle : fewer ≤ count) :
    Keeps fewer f g :=
  fun i hi => hfg i (Nat.lt_of_lt_of_le hi hle)

/-- The same registers hold the same. -/
theorem Holds.congr {v : ValueId} {x : Value} (hx : f.Holds v x)
    (hregisters : g.registers = f.registers) : g.Holds v x := by
  rw [Holds, hregisters]
  exact hx

/-- The same registers are kept. -/
theorem Keeps.congr {count : Nat} (hregisters : g.registers = f.registers) : Keeps count f g :=
  fun _ _ => by rw [hregisters]

/-- The value of a register that holds one. -/
theorem Holds.value_eq {v : ValueId} {x : Value} (hx : f.Holds v x) : f.value v = .ok x := by
  unfold Holds at hx
  rw [Frame.value, hx]

/-- The number in a register that holds one. -/
theorem Holds.number_eq {v : ValueId} {x : Float} (hx : f.Holds v (.number x)) :
    f.number v = .ok x := by
  rw [Frame.number, hx.value_eq]
  rfl

/-- The truth value in a register that holds one. -/
theorem Holds.truth_eq {v : ValueId} {x : Bool} (hx : f.Holds v (.truth x)) :
    f.truth v = .ok x := by
  rw [Frame.truth, hx.value_eq]
  rfl

/-- The numbers in registers that hold them. -/
theorem mapM_number_eq {vs : List ValueId} {xs : List Float}
    (hxs : List.Forall₂ (fun v x => f.Holds v (.number x)) vs xs) :
    vs.mapM f.number = .ok xs := by
  induction hxs with
  | nil => rfl
  | cons hx _ ih =>
    rw [List.mapM_cons, hx.number_eq, ih]
    rfl

/-- Arithmetic on registers that hold numbers. -/
theorem evaluate_arithmetic {left right : ValueId} {x y : Float} (hx : f.Holds left (.number x))
    (hy : f.Holds right (.number y)) (op : Ssa.Arithmetic) :
    f.evaluate (.arithmetic op left right) = .ok (.number (calculate op x y)) := by
  rw [evaluate, hx.number_eq, hy.number_eq]
  rfl

/-- Comparison of registers that hold numbers. -/
theorem evaluate_compare {left right : ValueId} {x y : Float} (hx : f.Holds left (.number x))
    (hy : f.Holds right (.number y)) (op : Ssa.Comparison) :
    f.evaluate (.compare op left right) = .ok (.truth (compare op x y)) := by
  rw [evaluate, hx.number_eq, hy.number_eq]
  rfl

/-- A truth value as a number. -/
theorem evaluate_widen {v : ValueId} {choice : Bool} (hv : f.Holds v (.truth choice)) :
    f.evaluate (.widen v) = .ok (.number (if choice then 1 else 0)) := by
  rw [evaluate, hv.truth_eq]
  rfl

/-- What is pending does not matter for the value of an operation. -/
theorem evaluate_pending (f : Frame) (rest : List Instruction) (operation : Operation) :
    ({ f with pending := rest } : Frame).evaluate operation = f.evaluate operation := by
  cases operation <;> rfl

/-- The frame with another value in a register. -/
theorem assign_eq {v : ValueId} (hv : v.index < f.registers.size) (x : Value) :
    f.assign v x = .ok { f with registers := f.registers.set v.index (some x) hv } := by
  rw [Frame.assign, dif_pos hv]

/-- A register that has been assigned holds the value. -/
theorem holds_set {v : ValueId} (hv : v.index < f.registers.size) (x : Value) :
    ({ f with registers := f.registers.set v.index (some x) hv } : Frame).Holds v x := by
  simp [Holds]

/-- The registers before one that has been assigned are kept. -/
theorem keeps_set {v : ValueId} (hv : v.index < f.registers.size) (x : Value) :
    Keeps v.index f { f with registers := f.registers.set v.index (some x) hv } := by
  intro i hi
  simp [Nat.ne_of_gt hi]

end Kaleidoscope.Machine.Frame
