import LinearAssignment.Proofs.Chain.Augmenting
import LinearAssignment.Proofs.Cover.Shift
import LinearAssignment.Tableau

/-!
The invariant of the search.

`Sound` is what holds of a tableau before every turn. `Ready` adds what lets the search go on: from
each uncovered column a route leads to an unmatched column, and the cells of unmatched lines are
finite.
-/

namespace LinearAssignment.Tableau

open Chain Cost Finset

variable {α : Type} {n : ℕ} [Cost α]

structure Sound (t : Tableau α n) : Prop where
  consistent : t.matching.Consistent
  mark_lt (r : Fin n) (c : ℕ) (h : t.marks.get r = some c) : c < n
  nonneg (r c : Fin n) : Nonneg (t.grid r c)
  zero_of_matched (r c : Fin n) (h : t.matching.colOf.get r = some c.val) :
    (t.grid r c == 0) = true
  /-- Of a matched cell either the row is covered or the column. -/
  crossing (r c : Fin n) (h : t.matching.colOf.get r = some c.val) :
    t.cover.rows.get r = !t.cover.cols.get c
  row_uncovered (r : Fin n) (h : t.matching.colOf.get r = none) : t.cover.rows.get r = false
  col_uncovered (c : Fin n) (h : t.matching.rowOf.get c = none) : t.cover.cols.get c = false
  marked_iff (r : Fin n) : (t.marks.get r).isSome = true ↔ t.cover.rows.get r = true
  zero_of_marked (r c : Fin n) (h : t.marks.get r = some c.val) :
    (t.grid r c == 0) = true ∧ t.cover.cols.get c = false

structure Ready (t : Tableau α n) : Prop extends Sound t where
  route (c : Fin n) (h : t.cover.cols.get c = false) :
    ∃ rest e, Route t.matching t.marks c rest (some e) ∧ rest.length ≤ 2 * #t.cover.coveredRows
  finite (r c : Fin n) (hr : t.matching.colOf.get r = none) (hc : t.matching.rowOf.get c = none) :
    isFinite (t.grid r c) = true

namespace Sound

variable {t : Tableau α n} (h : t.Sound)
include h

theorem isNumber (r c : Fin n) : isNumber (t.grid r c) = true := (h.nonneg r c).1

theorem mark_eq_none {r : Fin n} (hr : t.cover.rows.get r = false) : t.marks.get r = none := by
  rw [← Option.not_isSome_iff_eq_none, h.marked_iff]
  simp [hr]

/-- A covered row is matched to an uncovered column. -/
theorem exists_col {r : Fin n} (hr : t.cover.rows.get r = true) :
    ∃ c : Fin n, t.matching.colOf.get r = some c.val ∧ t.cover.cols.get c = false := by
  have hmatched : (t.matching.colOf.get r).isSome = true := by
    rw [Option.isSome_iff_ne_none]
    intro hnone
    simp [h.row_uncovered r hnone] at hr
  obtain ⟨c, hc⟩ := h.consistent.exists_col hmatched
  have hcross := h.crossing r c hc
  exact ⟨c, hc, by simpa [hr] using hcross⟩

theorem coveredCols_subset : t.cover.coveredCols ⊆ t.matching.matchedCols := by
  intro c hc
  rw [Matching.mem_matchedCols, Option.isSome_iff_ne_none]
  intro hnone
  simp [h.col_uncovered c hnone] at hc

theorem card_coveredRows :
    #t.cover.coveredRows = #(t.matching.matchedCols \ t.cover.coveredCols) := by
  refine Nat.le_antisymm ?_ ?_
  · refine card_le_card_of_forall_subsingleton
      (fun r c ↦ t.matching.colOf.get r = some c.val) ?_ ?_
    · intro r hr
      obtain ⟨c, hc, hcol⟩ := h.exists_col (Cover.mem_coveredRows.mp hr)
      exact ⟨c, by simp [(h.consistent.agree r c).mp hc, hcol], hc⟩
    · rintro c - r ⟨-, hr⟩ s ⟨-, hs⟩
      exact h.consistent.row_unique hr hs
  · refine card_le_card_of_forall_subsingleton
      (fun c r ↦ t.matching.rowOf.get c = some r.val) ?_ ?_
    · intro c hc
      obtain ⟨hm, hcol⟩ := mem_sdiff.mp hc
      obtain ⟨r, hr⟩ := h.consistent.exists_row (Matching.mem_matchedCols.mp hm)
      have hcross := h.crossing r c ((h.consistent.agree r c).mpr hr)
      exact ⟨r, by simpa [hcross] using hcol, hr⟩
    · rintro r - c ⟨-, hc⟩ d ⟨-, hd⟩
      exact h.consistent.col_unique hc hd

theorem card_cover : #t.cover.coveredRows + #t.cover.coveredCols = t.matching.size := by
  rw [h.card_coveredRows, card_sdiff_add_card_eq_card h.coveredCols_subset,
    Matching.card_matchedCols]

theorem card_coveredRows_le : #t.cover.coveredRows ≤ t.matching.size :=
  h.card_cover ▸ Nat.le_add_right _ _

end Sound

namespace Ready

/-- A tableau without marks, whose cover is just that of the matched columns, is ready. -/
theorem coverMatched {t : Tableau α n} (consistent : t.matching.Consistent)
    (nonneg : ∀ r c, Nonneg (t.grid r c))
    (zero_of_matched : ∀ r c : Fin n, t.matching.colOf.get r = some c.val →
      (t.grid r c == 0) = true)
    (finite : ∀ r c, t.matching.colOf.get r = none → t.matching.rowOf.get c = none →
      isFinite (t.grid r c) = true)
    (rows : ∀ r, t.cover.rows.get r = false) (marks : ∀ r, t.marks.get r = none) :
    t.coverMatched.Ready where
  consistent := consistent
  mark_lt r c hr := by
    change t.marks.get r = some c at hr
    simp [marks r] at hr
  nonneg := nonneg
  zero_of_matched := zero_of_matched
  crossing r c hr := by
    have hc := (consistent.agree r c).mp hr
    simp only [Tableau.coverMatched, Cover.cols_matchedCols, hc]
    exact rows r
  row_uncovered r _ := rows r
  col_uncovered c hc := by
    change t.matching.rowOf.get c = none at hc
    simp [Tableau.coverMatched, Cover.cols_matchedCols, hc]
  marked_iff r := by
    change (t.marks.get r).isSome = true ↔ t.cover.rows.get r = true
    simp [marks r, rows r]
  zero_of_marked r c hr := by
    change t.marks.get r = some c.val at hr
    simp [marks r] at hr
  route c hc := by
    simp only [Tableau.coverMatched, Cover.cols_matchedCols, Option.isSome_eq_false_iff,
      Option.isNone_iff_eq_none] at hc
    exact ⟨[], c, .free hc, Nat.zero_le _⟩
  finite := finite

variable {t : Tableau α n} (h : t.Ready)
include h

theorem size_lt {c : Fin n} (hc : t.cover.cols.get c = false) : t.matching.size < n := by
  obtain ⟨rest, e, hroute, -⟩ := h.route c hc
  refine t.matching.size_le.lt_of_ne fun hn ↦ ?_
  have he := Matching.size_eq_iff.mp hn e
  simp [hroute.end_free] at he

theorem exists_finite (hcols : t.cover.allCols = false) :
    ∃ r c, t.cover.rows.get r = false ∧ t.cover.cols.get c = false ∧
      isFinite (t.grid r c) = true := by
  obtain ⟨c, hc⟩ : ∃ c, t.cover.cols.get c = false := by
    by_contra! hall
    simp [Cover.allCols_eq_true.mpr fun c ↦ by simpa using hall c] at hcols
  obtain ⟨r, hr⟩ := h.consistent.exists_free_row (h.size_lt hc)
  obtain ⟨rest, e, hroute, -⟩ := h.route c hc
  exact ⟨r, e, h.row_uncovered r hr, h.col_uncovered e hroute.end_free,
    h.finite r e hr hroute.end_free⟩

/-- The search is over when the matching is perfect. -/
theorem allCols_iff : t.cover.allCols = true ↔ t.matching.size = n := by
  rw [Matching.size_eq_iff, Cover.allCols_eq_true]
  refine ⟨fun hall c ↦ ?_, fun hall c ↦ ?_⟩
  · exact Matching.mem_matchedCols.mp (h.coveredCols_subset (Cover.mem_coveredCols.mpr (hall c)))
  · by_contra hc
    exact (h.size_lt (by simpa using hc)).ne (Matching.size_eq_iff.mpr hall)

end Ready

end LinearAssignment.Tableau
