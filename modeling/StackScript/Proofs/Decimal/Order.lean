import Mathlib
import StackScript.Machine.Operate

/-! # The order of decimals

Two decimals are less, equal, greater or, with NaN, none of these. Which of them holds the other way
round follows.
-/

namespace StackScript

namespace Decimal

section Unpacked

open Float.Model

variable {a b : UnpackedFloat}

theorem compare_sign_swap (s t : UnpackedFloat.Sign) : (compare s t).swap = compare t s := by
  cases s <;> cases t <;> rfl

/-- Unpacked decimals of one sign are compared by their exponents, then by their mantissas; of
negative ones the larger magnitude is the lesser. -/
theorem compare_unpacked_swap (a b : UnpackedFloat) :
    (a.compare b).map Ordering.swap = b.compare a := by
  cases a with
  | notANumber => cases b <;> rfl
  | infinity s =>
    cases b with
    | notANumber => cases s <;> rfl
    | infinity t => exact congrArg some (compare_sign_swap s t)
    | zero t => cases s <;> rfl
    | finite t n f hn => cases s <;> cases t <;> rfl
  | zero s =>
    cases b with
    | notANumber => rfl
    | infinity t => cases t <;> rfl
    | zero t => rfl
    | finite t n f hn => cases t <;> rfl
  | finite s m e hm =>
    cases b with
    | notANumber => rfl
    | infinity t => cases s <;> cases t <;> rfl
    | zero t => cases s <;> rfl
    | finite t n f hn =>
      cases s <;> cases t <;>
        simp [UnpackedFloat.compare, Ordering.swap_then, Int.compare_swap, Nat.compare_swap]

end Unpacked

section Decimals

variable (a b : Float)

theorem compare_model_swap :
    (a.toModel.compare b.toModel).map Ordering.swap = b.toModel.compare a.toModel :=
  compare_unpacked_swap ..

theorem lt_iff_compare : a < b ↔ a.toModel.compare b.toModel = some .lt :=
  decide_eq_true_iff.trans beq_iff_eq

theorem beq_iff_compare : (a == b) = true ↔ a.toModel.compare b.toModel = some .eq := by
  change (a.toModel.compare b.toModel == some .eq) = true ↔ _
  rw [beq_iff_eq]

theorem gt_iff_compare : b < a ↔ a.toModel.compare b.toModel = some .gt := by
  rw [lt_iff_compare, ← compare_model_swap]
  cases a.toModel.compare b.toModel with
  | none => simp
  | some o => cases o <;> simp

theorem order?_eq_compare : Operator.decimalOrder? a b = a.toModel.compare b.toModel := by
  simp only [Operator.decimalOrder?, lt_iff_compare a b, beq_iff_compare, gt_iff_compare]
  cases a.toModel.compare b.toModel with
  | none => rfl
  | some o => cases o <;> rfl

theorem order?_swap :
    (Operator.decimalOrder? a b).map Ordering.swap = Operator.decimalOrder? b a := by
  rw [order?_eq_compare, order?_eq_compare, compare_model_swap]

end Decimals

end Decimal

end StackScript
