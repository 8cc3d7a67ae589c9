import LinearAssignment.Proofs.Grid.Reduced
import LinearAssignment.Proofs.Search.Crossing

/-!
The working grid stays reduced. An adjustment takes away the zeros where covered lines cross, but a
covered row keeps its marked zero and a covered column its matched one. Every other line has its
zeros where it crosses a covered one, and keeps them.
-/

namespace LinearAssignment

open Cost

namespace Tableau

variable {α : Type} {n : ℕ} [Cost α] [Lawful α] {p q : Phase n} {t s : Tableau α n}
  {events : List (Event α)}

/-- An uncovered zero would be the least uncovered entry. -/
theorem Sound.covered_of_zero (h : t.Sound) {m : α} (hm : t.adjustment? = some m) {r c : Fin n}
    (hz : (t.grid r c == 0) = true) (hr : t.cover.rows.get r = false) :
    t.cover.cols.get c = true := by
  by_contra hc
  obtain ⟨hamount, hpos, -⟩ := h.amount_of_adjustment? hm
  have hle := hamount.le r c hr (by simpa using hc)
  rw [(beq_zero_iff (h.isNumber r c)).mp hz] at hle
  exact hle.not_gt hpos

/-- Every row has a zero that just one line covers. -/
theorem Sound.exists_crossing_row (h : t.Sound) (hg : t.grid.Zeroed) {m : α}
    (hm : t.adjustment? = some m) (r : Fin n) :
    ∃ c, (t.grid r c == 0) = true ∧ t.cover.rows.get r = !t.cover.cols.get c := by
  cases hr : t.cover.rows.get r with
  | true =>
    obtain ⟨c, hc⟩ := Option.isSome_iff_exists.mp ((h.marked_iff r).mpr hr)
    obtain ⟨hz, hcol⟩ := h.zero_of_marked r ⟨c, h.mark_lt r c hc⟩ hc
    exact ⟨_, hz, by rw [hcol]; rfl⟩
  | false =>
    obtain ⟨c, hz⟩ := hg.row r
    exact ⟨c, hz, by rw [h.covered_of_zero hm hz hr]; rfl⟩

theorem Sound.exists_crossing_col (h : t.Sound) (hg : t.grid.Zeroed) {m : α}
    (hm : t.adjustment? = some m) (c : Fin n) :
    ∃ r, (t.grid r c == 0) = true ∧ t.cover.rows.get r = !t.cover.cols.get c := by
  cases hc : t.cover.cols.get c with
  | true =>
    have hmatched := Matching.mem_matchedCols.mp
      (h.coveredCols_subset (Cover.mem_coveredCols.mpr hc))
    obtain ⟨r, hr⟩ := h.consistent.exists_row hmatched
    have hr := (h.consistent.agree r c).mpr hr
    have hcross := h.crossing r c hr
    rw [hc] at hcross
    exact ⟨r, h.zero_of_matched r c hr, hcross⟩
  | false =>
    obtain ⟨r, hz⟩ := hg.col c
    refine ⟨r, hz, ?_⟩
    by_contra hrow
    have hcol := h.covered_of_zero hm hz (by simpa using hrow)
    simp [hc] at hcol

theorem Sound.zeroed_adjust (h : t.Sound) (hg : t.grid.Zeroed) : t.adjust.grid.Zeroed := by
  cases hm : t.adjustment? with
  | none => rwa [adjust_of_none hm]
  | some m =>
    have hkeeps {r c : Fin n} (hz : (t.grid r c == 0) = true)
        (hcross : t.cover.rows.get r = !t.cover.cols.get c) : (t.adjust.grid r c == 0) = true := by
      rw [adjust_of_some hm]
      dsimp only
      rwa [Grid.shift_of_crossing hcross]
    refine ⟨h.adjust.nonneg, fun r ↦ ?_, fun c ↦ ?_⟩
    · obtain ⟨c, hz, hcross⟩ := h.exists_crossing_row hg hm r
      exact ⟨c, hkeeps hz hcross⟩
    · obtain ⟨r, hz, hcross⟩ := h.exists_crossing_col hg hm c
      exact ⟨r, hkeeps hz hcross⟩

theorem Step.zeroed (h : Step p t events q s) (hp : Due p t) (hne : p ≠ .reduce)
    (hg : t.grid.Zeroed) : s.grid.Zeroed := by
  rcases h.grid_cases with ⟨rfl, -⟩ | ⟨rfl, -, rfl⟩ | hgrid
  · exact absurd rfl hne
  · exact hp.ready_of_adjust.1.zeroed_adjust hg
  · rwa [hgrid]

theorem Path.zeroed {g : Grid α n} (h : Path .reduce (ofGrid g) events p s) (hg : g.Admitted)
    (hp : p ≠ .reduce) : s.grid.Zeroed :=
  (h.of_ne_reduce hp).invariant (I := fun _ _ s ↦ s.grid.Zeroed) []
    (fun hs hp hne hg ↦ hs.zeroed hp hne hg) (.extend (ready_start hg)) nofun hg.zeroed

end Tableau

namespace CostMatrix

open Tableau

/-- From the reduction on the least entry of every row and of every column is a zero at every call,
and a further reduction would change no value. -/
theorem calls_reduced {costs : CostMatrix Float} {t : Tableau Float costs.length}
    (h : costs.tableau = .ok t) :
    (∃ o, costs.solve = .ok o ∧ t.LeadsTo o) ∧
      ∀ events p s, Path .reduce t events p s → p ≠ .reduce →
        s.grid.Reduced ∧ ∀ r c, (s.reduce.grid r c == s.grid r c) = true := by
  refine ⟨exists_leadsTo h, fun events p s hs hp ↦ ?_⟩
  obtain ⟨hd, rfl⟩ := tableau_eq_ok.mp h
  have hzeroed := hs.zeroed (admitted hd) hp
  exact ⟨hzeroed.reduced, hzeroed.reduce_beq⟩

theorem calls_reduced_contested : contested.tableau = .ok contestedTableau ∧
    Path .reduce contestedTableau [.rowCovered 0 2, .adjusted 1] .markZero
      contestedCovered.adjust ∧
    (contestedCovered.adjust.grid 0 1 == contestedTableau.reduce.grid 0 1) = false ∧
    contestedCovered.adjust.grid.Reduced ∧
    ∀ r c, (contestedCovered.adjust.reduce.grid r c == contestedCovered.adjust.grid r c) = true := by
  obtain ⟨hreduced, hsame⟩ := (calls_reduced tableau_contested).2 _ _ _ path_contested_adjusted nofun
  exact ⟨tableau_contested, path_contested_adjusted, by decide +kernel, hreduced, hsame⟩

end CostMatrix

end LinearAssignment
