import LinearAssignment.Cover
import LinearAssignment.Proofs.Cost.Lawful
import Mathlib.Data.Fintype.Card

/-!
Covered lines, and what a shift makes of the cells that they cover.
-/

namespace LinearAssignment

namespace Cover

variable {n : ℕ} {k : Cover n}

def coveredRows (k : Cover n) : Finset (Fin n) := {r | k.rows.get r = true}

def coveredCols (k : Cover n) : Finset (Fin n) := {c | k.cols.get c = true}

@[simp] theorem mem_coveredRows {r : Fin n} : r ∈ k.coveredRows ↔ k.rows.get r = true := by
  simp [coveredRows]

@[simp] theorem mem_coveredCols {c : Fin n} : c ∈ k.coveredCols ↔ k.cols.get c = true := by
  simp [coveredCols]

theorem coveredRows_empty : (empty : Cover n).coveredRows = ∅ := by
  ext r
  simp [empty]

theorem rows_exchange (k : Cover n) (row col r : Fin n) :
    (k.exchange row col).rows.get r = if row = r then true else k.rows.get r := by
  simp [exchange, Table.get_setIfInBounds, Fin.val_inj]

theorem cols_exchange (k : Cover n) (row col c : Fin n) :
    (k.exchange row col).cols.get c = if col = c then false else k.cols.get c := by
  simp [exchange, Table.get_setIfInBounds, Fin.val_inj]

theorem coveredRows_exchange (k : Cover n) (row col : Fin n) :
    (k.exchange row col).coveredRows = insert row k.coveredRows := by
  ext r
  simp only [mem_coveredRows, rows_exchange, Finset.mem_insert]
  split_ifs with h
  · simp [h]
  · simp [Ne.symm h]

theorem cols_matchedCols (k : Cover n) (m : Matching n) (c : Fin n) :
    (k.matchedCols m).cols.get c = (m.rowOf.get c).isSome := Table.get_ofFn _ c

end Cover

namespace Grid

variable {α : Type} {n : ℕ} [Cost α] {g : Grid α n} {k : Cover n} {m : α} {r c : Fin n}

theorem shift_of_uncovered (hr : k.rows.get r = false) (hc : k.cols.get c = false) :
    g.shift k m r c = g r c - m := by simp [shift, hr, hc]

theorem shift_of_covered (hr : k.rows.get r = true) (hc : k.cols.get c = true) :
    g.shift k m r c = g r c + m := by simp [shift, hr, hc]

/-- A cell that is covered just once keeps its entry. -/
theorem shift_of_crossing (h : k.rows.get r = !k.cols.get c) : g.shift k m r c = g r c := by
  cases hc : k.cols.get c <;> simp [shift, h, hc]

open Cost

variable [Lawful α]

theorem leastUncovered?_eq_some (hg : ∀ r c, isNumber (g r c) = true)
    (hr : k.rows.get r = false) (hc : k.cols.get c = false) :
    ∃ m, g.leastUncovered? k = some m ∧
      (∃ r c, k.rows.get r = false ∧ k.cols.get c = false ∧ g r c = m) ∧
      ∀ r c, k.rows.get r = false → k.cols.get c = false →
        Lawful.value m ≤ Lawful.value (g r c) := by
  have hmem {i j : Fin n} (hi : k.rows.get i = false) (hj : k.cols.get j = false) :
      g i j ∈ k.uncoveredCells.map fun p ↦ g p.1 p.2 :=
    List.mem_map.mpr ⟨(i, j), Cover.mem_uncoveredCells.mpr ⟨hi, hj⟩, rfl⟩
  have hnumber : ∀ v ∈ k.uncoveredCells.map fun p ↦ g p.1 p.2, isNumber v = true := by
    intro v hv
    obtain ⟨p, -, rfl⟩ := List.mem_map.mp hv
    exact hg p.1 p.2
  obtain ⟨m, hm, he, hle⟩ := exists_least? hnumber (List.ne_nil_of_mem (hmem hr hc))
  obtain ⟨p, hp, rfl⟩ := List.mem_map.mp hm
  obtain ⟨hi, hj⟩ := Cover.mem_uncoveredCells.mp hp
  exact ⟨_, he, ⟨p.1, p.2, hi, hj, rfl⟩, fun i j hi hj ↦ hle _ (hmem hi hj)⟩

theorem exists_least_of_uncovers (hg : ∀ r c, isNumber (g r c) = true) {p : Cell n}
    (hp : k.uncovers p = true) : ∃ m, g.leastUncovered? k = some m ∧
      (∃ q, k.uncovers q = true ∧ g q.1 q.2 = m) ∧
      ∀ q, k.uncovers q = true → Lawful.value m ≤ Lawful.value (g q.1 q.2) := by
  obtain ⟨hr, hc⟩ := Cover.uncovers_eq_true.mp hp
  obtain ⟨m, hm, ⟨i, j, hi, hj, hcell⟩, hle⟩ := leastUncovered?_eq_some hg hr hc
  refine ⟨m, hm, ⟨(i, j), Cover.uncovers_eq_true.mpr ⟨hi, hj⟩, hcell⟩, ?_⟩
  intro q hq
  obtain ⟨hr, hc⟩ := Cover.uncovers_eq_true.mp hq
  exact hle q.1 q.2 hr hc

omit [Lawful α] in
theorem leastUncovered?_eq_none (h : ∀ p, k.uncovers p = false) : g.leastUncovered? k = none := by
  have hcells : k.uncoveredCells = [] := by
    rw [Cover.uncoveredCells, List.filter_eq_nil_iff]
    intro p _
    simp [h p]
  rw [leastUncovered?, hcells]
  rfl

omit [Lawful α] in
theorem of_zero? {p : Cell n} (h : g.zero? k = some p) :
    k.rows.get p.1 = false ∧ k.cols.get p.2 = false ∧ (g p.1 p.2 == 0) = true :=
  have hp := Cover.mem_uncoveredCells.mp (List.mem_of_find?_eq_some h)
  ⟨hp.1, hp.2, List.find?_some (p := fun p : Cell n ↦ g p.1 p.2 == 0) h⟩

omit [Lawful α] in
theorem zero?_eq_none : g.zero? k = none ↔
    ∀ r c, k.rows.get r = false → k.cols.get c = false → (g r c == 0) = false := by
  simp only [zero?, List.find?_eq_none, Cover.mem_uncoveredCells, Prod.forall, Bool.not_eq_true,
    and_imp]

end Grid

end LinearAssignment
