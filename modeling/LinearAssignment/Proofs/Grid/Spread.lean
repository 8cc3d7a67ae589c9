import LinearAssignment.Proofs.Cost.Exact
import LinearAssignment.Proofs.Grid.Reduce
import Mathlib.Tactic.Linarith

/-!
The spread of a row, and of a grid: by how much the greatest entry of a row exceeds its least. A
reduced entry does not exceed the spread.
-/

namespace LinearAssignment.Grid

open Cost

variable {α : Type} {n : ℕ} [Cost α]

def rowSpread? (g : Grid α n) (r : Fin n) : Option α :=
  match least? (g.row r), greatest? (g.row r) with
  | some lo, some hi => some (hi - lo)
  | _, _ => none

/-- The greatest spread of a row. -/
def spread? (g : Grid α n) : Option α := greatest? ((List.finRange n).filterMap g.rowSpread?)

/-- A reduced entry is at most the spread of its row as it is rounded. -/
theorem Admitted.exists_rowSpread?_ge [Lawful α] {g : Grid α n} (h : g.Admitted) (r : Fin n) :
    ∃ S, g.rowSpread? r = some S ∧ isFinite S = true ∧
      ∀ c, Lawful.value (g.reduce r c) ≤ Lawful.value S := by
  obtain ⟨d, hlo, -⟩ := exists_least?_line (h.isNumber r) r
  obtain ⟨e, hhi, hge⟩ := exists_greatest?_line (h.isNumber r) r
  refine ⟨g r e - g r d, by simp only [rowSpread?, row, hlo, hhi], h.range r _ _ hlo hhi,
    fun c ↦ ?_⟩
  obtain ⟨i, hcol, -⟩ := exists_least?_line (fun i ↦ (h.reduceRows i c).1.1) r
  obtain ⟨hin, hif⟩ := h.reduceRows i c
  calc Lawful.value (g.reduce r c) ≤ Lawful.value (g.reduceRows r c) := by
        rw [Grid.reduce, reduceCols_value, col, hcol]
        exact Lawful.value_sub_le (h.reduceRows r c).1.1 hif (nonneg_iff.mp hin).2
    _ ≤ Lawful.value (g r e - g r d) := by
        rw [reduceRows_value, row, hlo]
        exact Lawful.value_sub_mono (h.isNumber r c) (h.isNumber r e) (h.finite r d) (hge c)

variable [Exact α]

theorem isNumber_of_exact (a : α) : isNumber a = true :=
  Lawful.isNumber_of_isFinite (Exact.isFinite_all a)

theorem admitted_of_exact (g : Grid α n) : g.Admitted where
  finite r c := Exact.isFinite_all (g r c)
  range _ lo hi _ _ := Exact.isFinite_all (hi - lo)

theorem exists_rowSpread? (g : Grid α n) (r c : Fin n) :
    ∃ i j, g.rowSpread? r = some (g r i - g r j) ∧
      ∀ c d, Lawful.value (g r c) - Lawful.value (g r d) ≤ Lawful.value (g r i - g r j) := by
  obtain ⟨j, hlo, hle⟩ := exists_least?_line (fun c ↦ isNumber_of_exact (g r c)) c
  obtain ⟨i, hhi, hge⟩ := exists_greatest?_line (fun c ↦ isNumber_of_exact (g r c)) c
  refine ⟨i, j, by simp only [rowSpread?, row, hlo, hhi], ?_⟩
  intro c d
  rw [Exact.value_sub]
  exact sub_le_sub (hge c) (hle d)

/-- The spread of a grid is the greatest difference between two entries of a row. -/
theorem exists_spread? (g : Grid α n) (r : Fin n) :
    ∃ S, g.spread? = some S ∧ (∃ r c d, S = g r c - g r d) ∧
      ∀ r c d, Lawful.value (g r c) - Lawful.value (g r d) ≤ Lawful.value S := by
  have hmem (r : Fin n) : ∃ S ∈ (List.finRange n).filterMap g.rowSpread?,
      ∀ c d, Lawful.value (g r c) - Lawful.value (g r d) ≤ Lawful.value S := by
    obtain ⟨i, j, hS, hle⟩ := g.exists_rowSpread? r r
    exact ⟨_, List.mem_filterMap.mpr ⟨r, List.mem_finRange r, hS⟩, hle⟩
  obtain ⟨T, hT, -⟩ := hmem r
  obtain ⟨S, hS, he, hge⟩ := exists_greatest? (fun v _ ↦ isNumber_of_exact v)
    (List.ne_nil_of_mem hT)
  refine ⟨S, he, ?_, ?_⟩
  · obtain ⟨i, -, hi⟩ := List.mem_filterMap.mp hS
    obtain ⟨c, d, hcd, -⟩ := g.exists_rowSpread? i i
    exact ⟨i, c, d, Option.some.inj (hi.symm.trans hcd)⟩
  · intro i c d
    obtain ⟨T, hT, hle⟩ := hmem i
    exact (hle c d).trans (hge T hT)

theorem value_reduceRows_le {g : Grid α n} {S : ℚ}
    (hS : ∀ r c d, Lawful.value (g r c) - Lawful.value (g r d) ≤ S) (r c : Fin n) :
    Lawful.value (g.reduceRows r c) ≤ S := by
  obtain ⟨d, hlo, -⟩ := exists_least?_line (fun c ↦ isNumber_of_exact (g r c)) c
  rw [reduceRows_value, row, hlo, less, Exact.value_sub]
  exact hS r c d

theorem value_reduce_le {g : Grid α n} {S : ℚ}
    (hS : ∀ r c d, Lawful.value (g r c) - Lawful.value (g r d) ≤ S) (r c : Fin n) :
    Lawful.value (g.reduce r c) ≤ S := by
  have hrows (i : Fin n) := g.admitted_of_exact.reduceRows i c
  obtain ⟨i, hlo, -⟩ := exists_least?_line (fun i ↦ (hrows i).1.1) r
  have hleast := (nonneg_iff.mp (hrows i).1).2
  rw [reduce, reduceCols_value, col, hlo, less, Exact.value_sub]
  linarith [value_reduceRows_le hS r c]

end LinearAssignment.Grid
