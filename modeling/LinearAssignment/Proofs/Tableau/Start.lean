import LinearAssignment.Proofs.Grid.Order
import LinearAssignment.Proofs.Grid.Reduce
import LinearAssignment.Proofs.Matching.Greedy
import LinearAssignment.Proofs.Tableau.Sound
import LinearAssignment.Search

/-!
The tableau before the first turn. The grid of a matrix without a defect is admitted, and the
search starts from a tableau that is ready.
-/

namespace LinearAssignment

open Cost

namespace CostMatrix

variable {α : Type} [Cost α] {costs : CostMatrix α}

theorem rowDefect?_eq_none_iff {n row : ℕ} {vs : List α} : rowDefect? n row vs = none ↔
    vs.length = n ∧ (∀ v ∈ vs, isFinite v = true) ∧ spanFits n vs = true := by
  have hfind : vs.findIdx? (fun v ↦ !isFinite v) = none ↔ ∀ v ∈ vs, isFinite v = true := by
    simp [List.findIdx?_eq_none_iff]
  rw [← hfind, rowDefect?]
  by_cases hlen : vs.length = n
  · rw [if_pos hlen, and_iff_right hlen]
    cases vs.findIdx? fun v ↦ !isFinite v with
    | some col => simp
    | none => cases spanFits n vs <;> simp
  · simp [hlen]

theorem defect?_eq_findSome? (hne : costs ≠ []) : costs.defect? =
    (List.finRange costs.length).findSome? fun r : Fin costs.length ↦
      rowDefect? costs.length r (costs.get r) := by
  rw [defect?, if_neg (by simpa using hne), zipIdx_eq_map_finRange, List.findSome?_map]
  rfl

theorem defect?_eq_none_iff : costs.defect? = none ↔
    costs ≠ [] ∧ ∀ r : Fin costs.length, rowDefect? costs.length r costs[r] = none := by
  by_cases hne : costs = []
  · simp [defect?, hne]
  · rw [defect?_eq_findSome? hne, List.findSome?_eq_none_iff, and_iff_right hne]
    constructor
    · intro h r
      exact h r (List.mem_finRange r)
    · intro h r _
      exact h r

/-- The lists of a grid are admitted as a matrix if each row would be. -/
theorem defect?_toLists {n : ℕ} {g : Grid α n} (hn : 0 < n)
    (hfinite : ∀ r c, isFinite (g r c) = true) (hfits : ∀ r, spanFits n (g.row r) = true) :
    defect? g.toLists = none := by
  have hlen : g.toLists.length = n := by simp [Grid.toLists]
  refine defect?_eq_none_iff.mpr ⟨List.length_pos_iff.mp (hlen.symm ▸ hn), fun r ↦ ?_⟩
  obtain ⟨r, hr⟩ := r
  have hrn : r < n := hlen ▸ hr
  have hrow : g.toLists[r] = g.row ⟨r, hrn⟩ := by simp [Grid.toLists]
  change rowDefect? g.toLists.length r g.toLists[r] = none
  rw [hrow, hlen]
  refine rowDefect?_eq_none_iff.mpr ⟨by simp [Grid.row], fun v hv ↦ ?_, hfits _⟩
  obtain ⟨c, rfl⟩ := Grid.mem_row.mp hv
  exact hfinite _ c

theorem isFinite_of_spanFits [Lawful α] {n : ℕ} {vs : List α} (h : spanFits n vs = true) {lo hi : α}
    (hlo : least? vs = some lo) (hhi : greatest? vs = some hi) : isFinite (hi - lo) = true := by
  rw [spanFits, hlo, hhi] at h
  exact Lawful.isFinite_of_times h

theorem tableau_eq_error_iff {d : Defect} :
    costs.tableau = .error d ↔ costs.defect? = some d := by
  unfold tableau check
  split <;> simp_all [Except.map]

theorem tableau_eq_ok {t : Tableau α costs.length} : costs.tableau = .ok t ↔
    ∃ h : costs.defect? = none, t = .ofGrid (Grid.ofLists costs (square_of_defect? h)) := by
  constructor
  · intro ht
    by_cases hd : costs.defect? = none
    · rw [tableau, check_of_defect? hd] at ht
      exact ⟨hd, (Except.ok.inj ht).symm⟩
    · obtain ⟨d, hd⟩ := Option.ne_none_iff_exists'.mp hd
      rw [tableau_eq_error_iff.mpr hd] at ht
      cases ht
  · rintro ⟨hd, rfl⟩
    rw [tableau, check_of_defect? hd]
    rfl

theorem length_pos {t : Tableau α costs.length} (h : costs.tableau = .ok t) :
    0 < costs.length := by
  obtain ⟨hd, -⟩ := tableau_eq_ok.mp h
  rw [List.length_pos_iff]
  rintro rfl
  cases hd

omit [Cost α] in
theorem row_ofLists (h : Grid.Square costs.length costs) (r : Fin costs.length) :
    (Grid.ofLists costs h).row r = costs[r] := by
  have hrows := congrArg (·[r.val]?) (Grid.toLists_ofLists costs h)
  simpa [Grid.toLists] using hrows

theorem of_defect? (h : costs.defect? = none) (r : Fin costs.length) :
    (∀ v ∈ (Grid.ofLists costs (square_of_defect? h)).row r, isFinite v = true) ∧
      spanFits costs.length ((Grid.ofLists costs (square_of_defect? h)).row r) = true := by
  rw [row_ofLists]
  exact (rowDefect?_eq_none_iff.mp ((defect?_eq_none_iff.mp h).2 r)).2

theorem admitted [Lawful α] (h : costs.defect? = none) :
    (Grid.ofLists costs (square_of_defect? h)).Admitted where
  finite r c := (of_defect? h r).1 _ (Grid.mem_row.mpr ⟨c, rfl⟩)
  range r _ _ hlo hhi := isFinite_of_spanFits (of_defect? h r).2 hlo hhi

end CostMatrix

namespace Tableau

variable {α : Type} {n : ℕ} [Cost α] [Lawful α] {g : Grid α n}

theorem ready_start (h : g.Admitted) : (ofGrid g).start.Ready := by
  refine Ready.coverMatched (Matching.consistent_empty.extend) (fun r c ↦ (h.reduce r c).1)
    (Matching.zero_of_colOf_extend fun r c hr ↦ ?_)
    (fun r c _ _ ↦ (h.reduce r c).2) (fun r ↦ ?_) fun r ↦ ?_
  · simp [Tableau.reduce, ofGrid, Matching.empty] at hr
  · exact Table.get_replicate _ _
  · exact Table.get_replicate _ _

end Tableau

namespace CostMatrix

variable {α : Type} [Cost α] [Lawful α] {costs : CostMatrix α} {t : Tableau α costs.length}

theorem ready_start (h : costs.tableau = .ok t) : t.start.Ready := by
  obtain ⟨hd, rfl⟩ := tableau_eq_ok.mp h
  exact Tableau.ready_start (admitted hd)

end CostMatrix

end LinearAssignment
