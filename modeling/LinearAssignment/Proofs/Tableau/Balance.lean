import LinearAssignment.Proofs.Tableau.Potential

/-!
Balances. In exact arithmetic what the working grid has lost against the costs comes to one amount
for all permutations. An adjustment adds to it its own amount for every row that is unmatched.
-/

namespace LinearAssignment

open Cost Finset

variable {α : Type} {n : ℕ}

namespace Cover

theorem sum_rows (k : Cover n) (m : ℚ) :
    ∑ r, (if k.rows.get r = true then 0 else m) = (n - #k.coveredRows) * m := by
  have hrow (r : Fin n) : (if k.rows.get r = true then 0 else m) =
      m - if k.rows.get r = true then m else 0 := by
    split_ifs <;> simp
  simp only [hrow, sum_sub_distrib, ← sum_filter, sum_const, nsmul_eq_mul, card_univ,
    Fintype.card_fin]
  rw [sub_mul]
  rfl

theorem sum_cols (k : Cover n) (m : ℚ) :
    ∑ c, (if k.cols.get c = true then -m else 0) = -(#k.coveredCols * m) := by
  rw [← sum_filter, sum_const, nsmul_eq_mul, mul_neg]
  rfl

end Cover

variable [Cost α] [Exact α]

namespace Tableau

/-- The working grid is the costs less amounts of rows and columns that come to `A` in all. -/
def Balanced (A : ℚ) (t : Tableau α n) : Prop :=
  ∃ u v, t.costs.Offset t.grid u v ∧ ∑ r, u r + ∑ c, v c = A

variable {t s : Tableau α n} {A : ℚ} {m : α}

theorem balanced_ofGrid (g : Grid α n) : (ofGrid g).Balanced 0 :=
  ⟨0, 0, .refl g, by simp⟩

namespace Balanced

theorem of_offset (h : t.Balanced A) {u v : Fin n → ℚ} (hcosts : s.costs = t.costs)
    (hgrid : t.grid.Offset s.grid u v) : s.Balanced (A + (∑ r, u r + ∑ c, v c)) := by
  obtain ⟨u', v', hoffset, rfl⟩ := h
  refine ⟨u' + u, v' + v, hcosts ▸ hoffset.trans hgrid, ?_⟩
  simp only [Pi.add_apply, sum_add_distrib]
  ring

/-- The lines that are covered are as many as the pairs that are matched. -/
theorem adjust (h : t.Balanced A) (ht : t.Sound) (hm : t.adjustment? = some m) :
    t.adjust.Balanced (A + Lawful.value m * (n - t.matching.size)) := by
  have hsize : (#t.cover.coveredRows : ℚ) + #t.cover.coveredCols = t.matching.size := by
    exact_mod_cast ht.card_cover
  rw [adjust_of_some hm]
  have hshift := h.of_offset (s := { t with grid := t.grid.shift t.cover m }) rfl
    (t.grid.offset_shift t.cover m)
  rw [Cover.sum_rows, Cover.sum_cols] at hshift
  convert hshift using 2
  rw [← hsize]
  ring

theorem weight_eq (h : t.Balanced A) (σ : Equiv.Perm (Fin n)) :
    t.costs.weight σ = t.grid.weight σ + A := by
  obtain ⟨u, v, hoffset, rfl⟩ := h
  exact hoffset.weight_eq σ

end Balanced

end Tableau

end LinearAssignment
