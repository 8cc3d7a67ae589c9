import LinearAssignment.Cost
import Mathlib.Data.List.Forall2
import Mathlib.Data.Option.Basic

/-!
Numbers that mirror others: they are compared alike, and as long as the results of the others stay
within bounds, sums and differences mirror theirs.
-/

namespace LinearAssignment.Cost

variable {α β : Type} [Cost α] [Cost β]

/-- Calculation with the first of two related numbers comes to what calculation with the second
comes to, where the second is within bounds. -/
structure Mirrors (R : α → β → Prop) (B : β → Prop) : Prop where
  zero : R 0 0
  isFinite {x : α} {z : β} (hx : R x z) : isFinite x = isFinite z
  lt_iff {x y : α} {z w : β} (hx : R x z) (hy : R y w) : x < y ↔ z < w
  beq_eq {x y : α} {z w : β} (hx : R x z) (hy : R y w) : (x == y) = (z == w)
  add {x y : α} {z w : β} (hx : R x z) (hy : R y w) (h : B (z + w)) : R (x + y) (z + w)
  sub {x y : α} {z w : β} (hx : R x z) (hy : R y w) (h : B (z - w)) : R (x - y) (z - w)

namespace Mirrors

variable {R : α → β → Prop} {B : β → Prop} (h : Mirrors R B)
include h

theorem beq_zero {x : α} {z : β} (hx : R x z) : (x == 0) = (z == 0) := h.beq_eq hx h.zero

theorem lesser {x y : α} {z w : β} (hx : R x z) (hy : R y w) :
    R (lesser x y) (lesser z w) := by
  have hlt := h.lt_iff hy hx
  unfold Cost.lesser
  by_cases hwz : w < z
  · rwa [if_pos hwz, if_pos (hlt.mpr hwz)]
  · rwa [if_neg hwz, if_neg (mt hlt.mp hwz)]

theorem filter_isNumber {vs : List α} {ws : List β} (hvs : List.Forall₂ R vs ws) :
    List.Forall₂ R (vs.filter isNumber) (ws.filter isNumber) := by
  refine List.rel_filter ?_ hvs
  intro x z hx
  dsimp only
  rw [isNumber, isNumber, h.beq_eq hx hx]

theorem least? {vs : List α} {ws : List β} (hvs : List.Forall₂ R vs ws) :
    Option.Rel R (least? vs) (least? ws) := by
  have hnumbers := h.filter_isNumber hvs
  unfold Cost.least? foldNumbers?
  generalize vs.filter isNumber = vs at hnumbers
  generalize ws.filter isNumber = ws at hnumbers
  cases hnumbers with
  | nil => exact .none
  | cons hx hrest =>
    refine .some (List.rel_foldl (P := R) ?_ hx hrest)
    intro _ _ hx _ _ hy
    exact h.lesser hx hy

end Mirrors

end LinearAssignment.Cost
