import LinearAssignment.Proofs.Cost.Lawful
import Mathlib.Algebra.Order.Ring.Cast
import Mathlib.Data.Rat.Cast.Order

/-!
Exact arithmetic: the value of a sum is the sum of the values, and that of a difference is their
difference. Integers and rationals are exact.
-/

namespace LinearAssignment.Cost

class Exact (α : Type) [Cost α] extends Lawful α where
  isFinite_all (a : α) : isFinite a = true
  value_emptySum : value (emptySum : α) = 0
  value_add (a b : α) : value (a + b) = value a + value b
  value_sub (a b : α) : value (a - b) = value a - value b

instance : Exact Int where
  value := Int.cast
  value_zero := Int.cast_zero
  isFinite_zero := rfl
  isNumber_of_isFinite {a} _ := decide_eq_true (rfl : a = a)
  lt_iff _ _ := Int.cast_lt.symm
  beq_iff _ _ := decide_eq_true_iff.trans Int.cast_inj.symm
  isNumber_sub {a b} _ _ := decide_eq_true (rfl : a - b = a - b)
  value_sub_self {a} _ := by
    change ((a - a : ℤ) : ℚ) = 0
    rw [sub_self, Int.cast_zero]
  value_sub_mono _ _ _ h := Int.cast_le.mpr (Int.sub_le_sub_right (Int.cast_le.mp h) _)
  value_sub_le _ _ h := Int.cast_le.mpr (Int.sub_le_self _ (Int.cast_nonneg_iff.mp h))
  isNumber_add {a b} _ _ _ _ := decide_eq_true (rfl : a + b = a + b)
  value_add_nonneg _ _ ha hb := Int.cast_nonneg_iff.mpr
    (Int.add_nonneg (Int.cast_nonneg_iff.mp ha) (Int.cast_nonneg_iff.mp hb))
  isFinite_of_le _ _ _ _ := rfl
  isFinite_of_times _ := rfl
  isFinite_all _ := rfl
  value_emptySum := Int.cast_zero
  value_add := Int.cast_add
  value_sub := Int.cast_sub

instance : Exact Rat where
  value := id
  value_zero := rfl
  isFinite_zero := rfl
  isNumber_of_isFinite {a} _ := decide_eq_true (rfl : a = a)
  lt_iff _ _ := Iff.rfl
  beq_iff _ _ := decide_eq_true_iff
  isNumber_sub {a b} _ _ := decide_eq_true (rfl : a - b = a - b)
  value_sub_self {a} _ := sub_self a
  value_sub_mono _ _ _ h := sub_le_sub_right h _
  value_sub_le _ _ h := sub_le_self _ h
  isNumber_add {a b} _ _ _ _ := decide_eq_true (rfl : a + b = a + b)
  value_add_nonneg _ _ := add_nonneg
  isFinite_of_le _ _ _ _ := rfl
  isFinite_of_times _ := rfl
  isFinite_all _ := rfl
  value_emptySum := rfl
  value_add _ _ := rfl
  value_sub _ _ := rfl

open Lawful Exact

variable {α : Type} [Cost α] [Exact α]

instance : Neutral α where
  value_sub {a b} _ _ h := by rw [Exact.value_sub, h, sub_zero]

instance : Separating α where
  value_eq_of_sub {a b} _ _ h := by
    rw [Exact.value_sub] at h
    exact sub_eq_zero.mp h

theorem value_sum (vs : List α) : value (sum vs) = (vs.map value).sum := by
  have hfold (a : α) : value (vs.foldl (· + ·) a) = value a + (vs.map value).sum := by
    induction vs generalizing a with
    | nil => simp
    | cons v vs ih =>
      rw [List.foldl_cons, ih, value_add, List.map_cons, List.sum_cons, add_assoc]
  rw [sum, hfold, value_emptySum, zero_add]

end LinearAssignment.Cost
