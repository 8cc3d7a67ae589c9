import LinearAssignment.Proofs.Cost.Exact
import LinearAssignment.Proofs.Tableau.Turn
import Mathlib.Algebra.BigOperators.Group.Finset.Basic
import Mathlib.Algebra.Order.BigOperators.Group.Finset
import Mathlib.Tactic.Ring

/-!
Potentials. In exact arithmetic the working grid differs from the costs by amounts that belong to
rows and columns. All permutations share these amounts, and so a perfect matching on zeros is
cheapest.
-/

namespace LinearAssignment

open Cost

variable {α : Type} {n : ℕ} [Cost α] [Exact α]

namespace Grid

/-- The entries of a grid are those of another, less an amount of the row and one of the column. -/
def Offset (g w : Grid α n) (u v : Fin n → ℚ) : Prop :=
  ∀ r c, Lawful.value (w r c) = Lawful.value (g r c) - u r - v c

variable {g w x : Grid α n} {u v u' v' : Fin n → ℚ}

theorem Offset.refl (g : Grid α n) : g.Offset g 0 0 := fun r c ↦ by simp

theorem Offset.trans (h : g.Offset w u v) (h' : w.Offset x u' v') :
    g.Offset x (u + u') (v + v') := fun r c ↦ by
  rw [h' r c, h r c, Pi.add_apply, Pi.add_apply]
  ring

theorem value_less (a : α) (o : Option α) :
    Lawful.value (less a o) = Lawful.value a - o.elim 0 Lawful.value := by
  cases o with
  | none => simp [less]
  | some m => exact Exact.value_sub a m

theorem offset_reduceRows (g : Grid α n) :
    g.Offset g.reduceRows (fun r ↦ (least? (g.row r)).elim 0 Lawful.value) 0 := fun r c ↦ by
  rw [reduceRows_value, value_less, Pi.zero_apply, sub_zero]

theorem offset_reduceCols (g : Grid α n) :
    g.Offset g.reduceCols 0 (fun c ↦ (least? (g.col c)).elim 0 Lawful.value) := fun r c ↦ by
  rw [reduceCols_value, value_less, Pi.zero_apply, sub_zero]

/-- A shift takes the amount from the rows without a cover and gives it to the columns with one. -/
theorem offset_shift (g : Grid α n) (k : Cover n) (m : α) :
    g.Offset (g.shift k m) (fun r ↦ if k.rows.get r then 0 else Lawful.value m)
      (fun c ↦ if k.cols.get c then -Lawful.value m else 0) := fun r c ↦ by
  cases hr : k.rows.get r <;> cases hc : k.cols.get c
  · rw [shift_of_uncovered hr hc, Exact.value_sub]
    simp [hr, hc]
  · rw [shift_of_crossing (by rw [hr, hc]; rfl)]
    simp [hr, hc]
  · rw [shift_of_crossing (by rw [hr, hc]; rfl)]
    simp [hr, hc]
  · rw [shift_of_covered hr hc, Exact.value_add]
    simp [hr, hc]

def weight (g : Grid α n) (σ : Equiv.Perm (Fin n)) : ℚ := ∑ r, Lawful.value (g r (σ r))

theorem Offset.weight_eq (h : g.Offset w u v) (σ : Equiv.Perm (Fin n)) :
    g.weight σ = w.weight σ + (∑ r, u r + ∑ c, v c) := by
  have hcols : ∑ r, v (σ r) = ∑ c, v c := Equiv.sum_comp σ v
  rw [weight, weight, ← hcols, ← Finset.sum_add_distrib, ← Finset.sum_add_distrib]
  refine Finset.sum_congr rfl fun r _ ↦ ?_
  rw [h r (σ r)]
  ring

/-- A permutation of zeros of a grid without negative entries is cheapest. -/
theorem Offset.weight_le (h : g.Offset w u v) (hw : ∀ r c, 0 ≤ Lawful.value (w r c))
    {π : Equiv.Perm (Fin n)} (hπ : ∀ r, Lawful.value (w r (π r)) = 0) (σ : Equiv.Perm (Fin n)) :
    g.weight π ≤ g.weight σ := by
  have hzero : w.weight π = 0 := Finset.sum_eq_zero fun r _ ↦ hπ r
  have hnonneg : 0 ≤ w.weight σ := Finset.sum_nonneg fun r _ ↦ hw r (σ r)
  rw [h.weight_eq π, h.weight_eq σ, hzero]
  exact add_le_add_left hnonneg _

end Grid

namespace Tableau

/-- The working grid is the costs up to amounts of rows and columns. -/
def Priced (t : Tableau α n) : Prop := ∃ u v, t.costs.Offset t.grid u v

theorem priced_ofGrid (g : Grid α n) : (ofGrid g).Priced := ⟨0, 0, .refl g⟩

namespace Priced

variable {t s : Tableau α n} (h : t.Priced)
include h

theorem of_offset {u v : Fin n → ℚ} (hcosts : s.costs = t.costs)
    (hgrid : t.grid.Offset s.grid u v) : s.Priced := by
  obtain ⟨u', v', h⟩ := h
  exact ⟨u' + u, v' + v, hcosts ▸ h.trans hgrid⟩

theorem reduce : t.reduce.Priced :=
  h.of_offset rfl (t.grid.offset_reduceRows.trans t.grid.reduceRows.offset_reduceCols)

theorem adjust : t.adjust.Priced := by
  cases hm : t.adjustment? with
  | none => rwa [adjust_of_none hm]
  | some m =>
    rw [adjust_of_some hm]
    exact h.of_offset rfl (t.grid.offset_shift t.cover m)

theorem settle : t.settle.Priced := by
  rcases t.settle_eq with e | e <;> rw [e]
  · exact h
  · exact h.adjust

omit h in
theorem placed {events : List (Event α)} (h : t.Priced) (hs : Placed t s events) : s.Priced := by
  cases hs with
  | augment => exact h
  | exchange => exact Priced.adjust (t := Tableau.exchange _ _ _) h

end Priced

end Tableau

end LinearAssignment
