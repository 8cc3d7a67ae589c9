import LinearAssignment.Proofs.Search.Reduced

/-!
Maximum matchings of zeros. Zeros of which no two share a line are no more than the lines that
cover them, and a search that finds no uncovered zero covers as many lines as it has matched pairs.
So it shifts its grid only when no larger matching can be made of the zeros that are there.
-/

namespace LinearAssignment

open Finset

namespace Grid

variable {α : Type} {n : ℕ} [Cost α]

/-- Zeros of which no two share a row or a column. -/
structure Independent (g : Grid α n) (zs : Finset (Cell n)) : Prop where
  zero (p : Cell n) (h : p ∈ zs) : (g p.1 p.2 == 0) = true
  rows (p q : Cell n) (hp : p ∈ zs) (hq : q ∈ zs) (h : p.1 = q.1) : p = q
  cols (p q : Cell n) (hp : p ∈ zs) (hq : q ∈ zs) (h : p.2 = q.2) : p = q

variable {g : Grid α n} {zs : Finset (Cell n)}

/-- Each of the zeros lies on a covered line of its own. -/
theorem Independent.card_le (h : g.Independent zs) {k : Cover n}
    (hk : ∀ p ∈ zs, k.rows.get p.1 = true ∨ k.cols.get p.2 = true) :
    zs.card ≤ #k.coveredRows + #k.coveredCols := by
  have hrows : #{p ∈ zs | k.rows.get p.1 = true} ≤ #k.coveredRows := by
    refine card_le_card_of_injOn Prod.fst (fun p hp ↦ ?_) fun p hp q hq ↦ ?_
    · simpa using (mem_filter.mp hp).2
    · exact h.rows p q (mem_filter.mp hp).1 (mem_filter.mp hq).1
  have hcols : #{p ∈ zs | ¬k.rows.get p.1 = true} ≤ #k.coveredCols := by
    refine card_le_card_of_injOn Prod.snd (fun p hp ↦ ?_) fun p hp q hq ↦ ?_
    · obtain ⟨hmem, hrow⟩ := mem_filter.mp hp
      simpa using (hk p hmem).resolve_left hrow
    · exact h.cols p q (mem_filter.mp hp).1 (mem_filter.mp hq).1
  calc zs.card = #{p ∈ zs | k.rows.get p.1 = true} + #{p ∈ zs | ¬k.rows.get p.1 = true} :=
        (card_filter_add_card_filter_not _).symm
    _ ≤ #k.coveredRows + #k.coveredCols := Nat.add_le_add hrows hcols

end Grid

namespace Matching

variable {n : ℕ} {m : Matching n}

def matchedCells (m : Matching n) : Finset (Cell n) := {p | m.colOf.get p.1 = some p.2.val}

@[simp] theorem mem_matchedCells {p : Cell n} :
    p ∈ m.matchedCells ↔ m.colOf.get p.1 = some p.2.val := by simp [matchedCells]

theorem Consistent.card_matchedCells (h : m.Consistent) : #m.matchedCells = m.size := by
  rw [← card_matchedCols]
  refine card_bij (fun p _ ↦ p.2) (fun p hp ↦ ?_) (fun p hp q hq hpq ↦ ?_) fun c hc ↦ ?_
  · simp [(h.agree p.1 p.2).mp (mem_matchedCells.mp hp)]
  · have hq := mem_matchedCells.mp hq
    rw [← hpq] at hq
    exact Prod.ext (h.row_unique (mem_matchedCells.mp hp) hq) hpq
  · obtain ⟨r, hr⟩ := h.exists_row (mem_matchedCols.mp hc)
    exact ⟨(r, c), mem_matchedCells.mpr ((h.agree r c).mpr hr), rfl⟩

end Matching

namespace Tableau

variable {α : Type} {n : ℕ} [Cost α] {t : Tableau α n}

theorem Sound.independent (h : t.Sound) : t.grid.Independent t.matching.matchedCells where
  zero p hp := h.zero_of_matched p.1 p.2 (Matching.mem_matchedCells.mp hp)
  rows p q hp hq hpq := by
    have hp := Matching.mem_matchedCells.mp hp
    rw [hpq, Matching.mem_matchedCells.mp hq] at hp
    exact Prod.ext hpq (Fin.ext (Option.some.inj hp).symm)
  cols p q hp hq hpq := by
    have hq := Matching.mem_matchedCells.mp hq
    rw [← hpq] at hq
    exact Prod.ext (h.consistent.row_unique (Matching.mem_matchedCells.mp hp) hq) hpq

/-- Where an adjustment finds something to do, every zero is covered, and by just as many lines as
there are matched pairs. -/
theorem Sound.card_le_size [Cost.Lawful α] (h : t.Sound) {m : α} (hm : t.adjustment? = some m)
    {zs : Finset (Cell n)} (hzs : t.grid.Independent zs) : zs.card ≤ t.matching.size := by
  rw [← h.card_cover]
  refine hzs.card_le fun p hp ↦ ?_
  rw [or_iff_not_imp_left, Bool.not_eq_true]
  exact h.covered_of_zero hm (hzs.zero p hp)

end Tableau

namespace CostMatrix

open Tableau

/-- Whenever an adjustment changes the grid, the matched cells are zeros of which no two share a
line, and there are no more such zeros than matched pairs. -/
theorem matching_maximum {costs : CostMatrix Float} {t : Tableau Float costs.length}
    (h : costs.tableau = .ok t) :
    (∃ o, costs.solve = .ok o ∧ t.LeadsTo o) ∧
      ∀ events s, Path .reduce t events .adjust s → s.adjust.grid ≠ s.grid →
        s.grid.Independent s.matching.matchedCells ∧ #s.matching.matchedCells = s.matching.size ∧
          ∀ zs, s.grid.Independent zs → zs.card ≤ s.matching.size := by
  refine ⟨exists_leadsTo h, fun events s hs hne ↦ ?_⟩
  have hsound := (hs.due (.reduce (ready_start h))).ready_of_adjust.1.toSound
  refine ⟨hsound.independent, hsound.consistent.card_matchedCells, fun zs hzs ↦ ?_⟩
  cases hm : s.adjustment? with
  | none => exact absurd (congrArg Tableau.grid (adjust_of_none hm)) hne
  | some m => exact hsound.card_le_size hm hzs

theorem matching_maximum_contested : contested.tableau = .ok contestedTableau ∧
    Path .reduce contestedTableau [.rowCovered 0 2] .adjust contestedCovered ∧
    contestedCovered.adjust.grid ≠ contestedCovered.grid ∧
    contestedCovered.matching.matchedCells.card = 2 ∧
    ∀ zs, contestedCovered.grid.Independent zs → zs.card ≤ 2 := by
  have hne : contestedCovered.adjust.grid ≠ contestedCovered.grid := by
    intro hgrid
    have hcell : (contestedCovered.adjust.grid 0 1 == contestedCovered.grid 0 1) = true := by
      rw [hgrid]
      decide +kernel
    exact absurd hcell (by decide +kernel)
  obtain ⟨-, hcard, hle⟩ := (matching_maximum tableau_contested).2 _ _ path_contested hne
  have hsize : contestedCovered.matching.size = 2 := by decide +kernel
  exact ⟨tableau_contested, path_contested, hne, hcard.trans hsize,
    fun zs hzs ↦ (hle zs hzs).trans_eq hsize⟩

end CostMatrix

end LinearAssignment
