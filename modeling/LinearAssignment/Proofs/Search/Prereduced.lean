import LinearAssignment.Proofs.Binary64.Alike
import LinearAssignment.Proofs.Binary64.Product
import LinearAssignment.Proofs.Grid.Spread
import LinearAssignment.Proofs.Search.Beside
import LinearAssignment.Proofs.Search.Reduced

/-!
Costs that are reduced in advance. The reduction of an admitted matrix is admitted itself, and the
search returns the same pairs for both: a second reduction changes at most the signs of zeros.
-/

namespace LinearAssignment

open Cost Binary64

namespace Grid

variable {n : ℕ} {g : Grid Float n}

theorem spanFits_row_iff {α : Type} [Cost α] {g : Grid α n} {r : Fin n} :
    CostMatrix.spanFits n (g.row r) = true ↔
      ∀ S, g.rowSpread? r = some S → isFinite (times S (2 * n)) = true := by
  unfold CostMatrix.spanFits rowSpread?
  cases least? (g.row r) <;> cases greatest? (g.row r) <;> simp

/-- The range of a reduced row is not greater than that of the row, and so its multiples fit. -/
theorem Admitted.spanFits_reduce (h : g.Admitted) (r : Fin n)
    (hfits : CostMatrix.spanFits n (g.row r) = true) :
    CostMatrix.spanFits n (g.reduce.row r) = true := by
  obtain ⟨S, hS, -, hle⟩ := h.exists_rowSpread?_ge r
  have hzeroed := h.zeroed
  obtain ⟨c, hc⟩ := hzeroed.row r
  obtain ⟨d, hlo, hd⟩ := exists_least?_zero (hzeroed.nonneg r) hc
  obtain ⟨e, hhi, -⟩ := exists_greatest?_line (fun c ↦ (hzeroed.nonneg r c).1) c
  obtain ⟨hrange, hvalue⟩ := Zeroed.sub_of_zero (hzeroed.nonneg r e) (hzeroed.nonneg r d) hd
  have hspread : g.reduce.rowSpread? r = some (g.reduce r e - g.reduce r d) := by
    simp only [rowSpread?, row, hlo, hhi]
  refine spanFits_row_iff.mpr fun S' hS' ↦ ?_
  obtain rfl := Option.some.inj (hspread.symm.trans hS')
  exact isFinite_mul_of_le hrange.1 (value_nonneg.mp (nonneg_iff.mp hrange).2)
    (value_le_value.mp (hvalue.trans_le (hle e))) (spanFits_row_iff.mp hfits S hS)

theorem Admitted.admitted_reduce (h : g.Admitted)
    (hfits : ∀ r, CostMatrix.spanFits n (g.row r) = true) : g.reduce.Admitted where
  finite r c := (h.reduce r c).2
  range r _ _ hlo hhi := CostMatrix.isFinite_of_spanFits (h.spanFits_reduce r (hfits r)) hlo hhi

end Grid

namespace Tableau

variable {n : ℕ} {g : Grid Float n}

theorem alike_reduce (h : g.Admitted) :
    (ofGrid g.reduce).reduce.Beside Alike (ofGrid g).reduce :=
  agree_ofGrid fun r c ↦ by
    obtain ⟨hn, hv⟩ := h.zeroed.reduce r c
    exact ⟨hn, h.zeroed.nonneg r c, value_inj.mp hv⟩

theorem bounded_ofGrid_of_admitted (h : g.Admitted) : (ofGrid g).Bounded Nonneg where
  rows r c := (h.reduceRows r c).1
  entry hpath hp r c := (hpath.zeroed h hp).nonneg r c

/-- What a reduction makes of a tableau. -/
structure Normalised (t : Tableau Float n) : Prop where
  finite (r c : Fin n) : isFinite (t.reduce.grid r c) = true
  nonneg (r c : Fin n) : Nonneg (t.reduce.grid r c)
  reduced : t.reduce.grid.Reduced
  le_spread (r : Fin n) : ∃ S, t.costs.rowSpread? r = some S ∧ isFinite S = true ∧
    ∀ c, ¬S < t.reduce.grid r c
  costs : t.reduce.costs = t.costs
  idempotent (r c : Fin n) : (t.reduce.reduce.grid r c == t.reduce.grid r c) = true

theorem normalised (h : g.Admitted) : (ofGrid g).Normalised where
  finite r c := (h.reduce r c).2
  nonneg r c := (h.reduce r c).1
  reduced := h.zeroed.reduced
  le_spread r := by
    obtain ⟨S, hS, hfinite, hle⟩ := h.exists_rowSpread?_ge r
    refine ⟨S, hS, hfinite, fun c ↦ ?_⟩
    have hlt := Lawful.lt_iff (Lawful.isNumber_of_isFinite hfinite) (h.reduce r c).1.1
    exact hlt.not.mpr (hle c).not_gt
  costs := rfl
  idempotent := h.zeroed.reduce_beq

end Tableau

namespace CostMatrix

open Tableau

variable {costs : CostMatrix Float} {t : Tableau Float costs.length}

theorem defect?_reduce (h : costs.tableau = .ok t) : defect? t.reduce.grid.toLists = none := by
  obtain ⟨hd, rfl⟩ := tableau_eq_ok.mp h
  have hg := admitted hd
  exact defect?_toLists (length_pos h) (fun r c ↦ (hg.reduce r c).2)
    fun r ↦ hg.spanFits_reduce r (of_defect? hd r).2

theorem exists_solve_reduce (h : costs.tableau = .ok t) :
    ∃ o o', costs.solve = .ok o ∧ CostMatrix.solve t.reduce.grid.toLists = .ok o' ∧
      o'.pairs = o.pairs := by
  have hreduced := defect?_reduce h
  obtain ⟨hd, rfl⟩ := tableau_eq_ok.mp h
  have hg := admitted hd
  have hstart := Tableau.ready_start (hg.admitted_reduce fun r ↦ (of_defect? hd r).2)
  obtain ⟨i, j, events, events', o, o', π, ho, ho', -, hpairs, -⟩ :=
    Beside.exists_outcomes mirrors_alike (alike_reduce hg) hstart (Tableau.ready_start hg)
      (bounded_ofGrid_of_admitted hg)
  have hsolve := ho.solve
  rw [← Grid.ofLists_toLists (Grid.reduce _)] at hsolve
  obtain ⟨u, hu, hpairs'⟩ := exists_solve_ofLists _ hreduced hsolve
  exact ⟨o', u, solve_of_tableau h ho'.solve, hu, hpairs'.trans hpairs⟩

/-- The reduction of an admitted matrix leaves a zero as the least entry of every line and nothing
that is negative or exceeds the spread of its row. It is admitted again, a further reduction changes
no value, and both matrices have the same pairs. -/
theorem reduce_normalises (h : costs.tableau = .ok t) :
    Normalised t ∧ t.costs.toLists = costs ∧
      (∃ s, CostMatrix.tableau t.reduce.grid.toLists = .ok s) ∧
      ∃ o o', costs.solve = .ok o ∧ CostMatrix.solve t.reduce.grid.toLists = .ok o' ∧
        o'.pairs = o.pairs := by
  have hreduced := defect?_reduce h
  have hsolve := exists_solve_reduce h
  obtain ⟨hd, rfl⟩ := tableau_eq_ok.mp h
  exact ⟨normalised (admitted hd), Grid.toLists_ofLists costs (square_of_defect? hd),
    ⟨_, tableau_eq_ok.mpr ⟨hreduced, rfl⟩⟩, hsolve⟩

/-- Costs of very different magnitudes, with rounded differences and subnormal ones. -/
def rough : CostMatrix Float := [[0.1, 0.3, -0.2], [5e-324, 1e-323, 0], [1e16, 1, -1e16]]

theorem reduce_normalises_rough : ∃ t, rough.tableau = .ok t ∧ Normalised t ∧
    ∃ o o', rough.solve = .ok o ∧ CostMatrix.solve t.reduce.grid.toLists = .ok o' ∧
      o'.pairs = o.pairs := by
  have ht := tableau_eq_ok.mpr ⟨show rough.defect? = none by decide +kernel, rfl⟩
  obtain ⟨hnormalised, -, -, hsolve⟩ := reduce_normalises ht
  exact ⟨_, ht, hnormalised, hsolve⟩

end CostMatrix

end LinearAssignment
