import LinearAssignment.Grid.Reduce
import LinearAssignment.Proofs.Cost.Lawful

/-!
Reduction of an admitted grid: the entries are finite, and so are the ranges of its rows. The
reduced entries are then finite, and not negative.
-/

namespace LinearAssignment

open Cost

namespace Grid

variable {α : Type} {n : ℕ}

theorem mem_row {g : Grid α n} {r : Fin n} {v : α} : v ∈ g.row r ↔ ∃ c, g r c = v := by
  simp [row]

variable [Cost α]

/-- Finite entries, and a finite range in each row. -/
structure Admitted (g : Grid α n) : Prop where
  finite (r c : Fin n) : isFinite (g r c) = true
  range (r : Fin n) (lo hi : α) (hlo : least? (g.row r) = some lo)
    (hhi : greatest? (g.row r) = some hi) : isFinite (hi - lo) = true

variable [Lawful α] {g : Grid α n}

theorem exists_least?_line {f : Fin n → α} (hf : ∀ i, isNumber (f i) = true) (i : Fin n) :
    ∃ j, least? ((List.finRange n).map f) = some (f j) ∧
      ∀ i, Lawful.value (f j) ≤ Lawful.value (f i) := by
  have hmem (i : Fin n) : f i ∈ (List.finRange n).map f := List.mem_map_of_mem (List.mem_finRange i)
  obtain ⟨m, hm, he, hle⟩ := exists_least? (List.forall_mem_map.mpr fun i _ ↦ hf i)
    (List.ne_nil_of_mem (hmem i))
  obtain ⟨j, -, rfl⟩ := List.mem_map.mp hm
  exact ⟨j, he, fun i ↦ hle _ (hmem i)⟩

theorem exists_greatest?_line {f : Fin n → α} (hf : ∀ i, isNumber (f i) = true) (i : Fin n) :
    ∃ j, greatest? ((List.finRange n).map f) = some (f j) ∧
      ∀ i, Lawful.value (f i) ≤ Lawful.value (f j) := by
  have hmem (i : Fin n) : f i ∈ (List.finRange n).map f := List.mem_map_of_mem (List.mem_finRange i)
  obtain ⟨m, hm, he, hle⟩ := exists_greatest? (List.forall_mem_map.mpr fun i _ ↦ hf i)
    (List.ne_nil_of_mem (hmem i))
  obtain ⟨j, -, rfl⟩ := List.mem_map.mp hm
  exact ⟨j, he, fun i ↦ hle _ (hmem i)⟩

namespace Admitted

variable (h : g.Admitted)
include h

theorem isNumber (r c : Fin n) : isNumber (g r c) = true :=
  Lawful.isNumber_of_isFinite (h.finite r c)

theorem reduceRows (r c : Fin n) :
    Nonneg (g.reduceRows r c) ∧ isFinite (g.reduceRows r c) = true := by
  obtain ⟨d, hlo, hle⟩ := exists_least?_line (h.isNumber r) c
  obtain ⟨e, hhi, hge⟩ := exists_greatest?_line (h.isNumber r) c
  rw [reduceRows_value, row, hlo]
  have hnonneg := nonneg_sub (h.isNumber r c) (h.finite r d) (hle c)
  refine ⟨hnonneg, Lawful.isFinite_of_le hnonneg.1 (h.range r _ _ hlo hhi)
    (nonneg_iff.mp hnonneg).2 ?_⟩
  exact Lawful.value_sub_mono (h.isNumber r c) (h.isNumber r e) (h.finite r d) (hge c)

theorem reduce (r c : Fin n) : Nonneg (g.reduce r c) ∧ isFinite (g.reduce r c) = true := by
  obtain ⟨i, hlo, hle⟩ := exists_least?_line (fun i ↦ (h.reduceRows i c).1.1) r
  obtain ⟨hrn, hrf⟩ := h.reduceRows r c
  obtain ⟨hin, hif⟩ := h.reduceRows i c
  rw [Grid.reduce, reduceCols_value, col, hlo]
  exact ⟨nonneg_sub hrn.1 hif (hle r), isFinite_sub hrf hif (nonneg_iff.mp hin).2 (hle r)⟩

end Admitted

end Grid

end LinearAssignment
