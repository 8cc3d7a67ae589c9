import LinearAssignment.Proofs.Grid.Spread
import LinearAssignment.Proofs.Tableau.Agree
import LinearAssignment.Proofs.Tableau.Potential

/-!
Rescaled grids: all entries multiplied by a positive number, and then an amount of its own added to
each row. The reduction takes the amounts of the rows away, and keeps the multiples.
-/

namespace LinearAssignment

open Cost

variable {α : Type} {n : ℕ}

/-- The grid with every entry multiplied by `k`, and the amount of its row added. -/
def Grid.rescale [Add α] [Mul α] (g : Grid α n) (k : α) (u : Fin n → α) : Grid α n :=
  ofFn fun r c ↦ k * g r c + u r

variable [Cost α] [Exact α] {k : ℚ}

namespace Cost

def Multiple (k : ℚ) (x z : α) : Prop := Lawful.value x = k * Lawful.value z

/-- Multiples are calculated with and compared as what they are multiples of. -/
theorem mirrors_multiple (hk : 0 < k) : Mirrors (Multiple (α := α) k) fun _ ↦ True where
  zero := by simp [Multiple, Lawful.value_zero]
  isFinite {x z} _ := (Exact.isFinite_all x).trans (Exact.isFinite_all z).symm
  lt_iff {x y z w} hx hy := by
    rw [Lawful.lt_iff (Grid.isNumber_of_exact x) (Grid.isNumber_of_exact y),
      Lawful.lt_iff (Grid.isNumber_of_exact z) (Grid.isNumber_of_exact w), hx, hy]
    exact mul_lt_mul_iff_right₀ hk
  beq_eq {x y z w} hx hy := by
    rw [Bool.eq_iff_iff, Lawful.beq_iff (Grid.isNumber_of_exact x) (Grid.isNumber_of_exact y),
      Lawful.beq_iff (Grid.isNumber_of_exact z) (Grid.isNumber_of_exact w), hx, hy]
    exact mul_right_inj' hk.ne'
  add {x y z w} hx hy _ := by
    rw [Multiple, Exact.value_add, Exact.value_add, hx, hy, mul_add]
  sub {x y z w} hx hy _ := by
    rw [Multiple, Exact.value_sub, Exact.value_sub, hx, hy, mul_sub]

end Cost

namespace Grid

/-- The values of one grid are `k` times those of another, and an amount of the row. -/
def Rescaled (k : ℚ) (u : Fin n → ℚ) (g w : Grid α n) : Prop :=
  ∀ r c, Lawful.value (g r c) = k * Lawful.value (w r c) + u r

namespace Rescaled

variable {g w : Grid α n} {u : Fin n → ℚ} (h : Rescaled k u g w)
include h

theorem weight_eq (σ : Equiv.Perm (Fin n)) : g.weight σ = k * w.weight σ + ∑ r, u r := by
  rw [weight, weight, Finset.mul_sum, ← Finset.sum_add_distrib]
  exact Finset.sum_congr rfl fun r _ ↦ h r (σ r)

variable (hk : 0 < k)
include hk

/-- The least entries of a row are in the same place, and take the amount of the row with them. -/
theorem reduceRows : g.reduceRows.Agree (Multiple k) w.reduceRows := by
  intro r c
  obtain ⟨i, hlo, hle⟩ := exists_least?_line (fun c ↦ isNumber_of_exact (g r c)) c
  obtain ⟨j, hlo', hle'⟩ := exists_least?_line (fun c ↦ isNumber_of_exact (w r c)) c
  have hleast : Lawful.value (g r i) = k * Lawful.value (w r j) + u r := by
    refine ((hle j).trans_eq (h r j)).antisymm ?_
    rw [h r i]
    gcongr
    exact hle' i
  rw [reduceRows_value, reduceRows_value, row, row, hlo, hlo', Multiple, less, less,
    Exact.value_sub, Exact.value_sub, h r c, hleast]
  ring

theorem reduce : g.reduce.Agree (Multiple k) w.reduce :=
  (h.reduceRows hk).reduceCols (mirrors_multiple hk) fun _ _ ↦ trivial

end Rescaled

end Grid

end LinearAssignment
