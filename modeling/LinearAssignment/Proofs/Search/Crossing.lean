import LinearAssignment.Proofs.Search.Path

/-!
Where unmatched lines cross.

Matched lines stay matched, and no unmatched line is covered. So the cells of unmatched lines have
lost whatever was ever subtracted, and an adjustment always finds a finite least entry.
-/

namespace LinearAssignment

open Cost

namespace Tableau

variable {α : Type} {n : ℕ} [Cost α] {p q : Phase n} {t s : Tableau α n} {w : Grid α n}
  {events : List (Event α)}

/-- The grid changes by reductions and adjustments alone. -/
theorem Step.grid_cases (h : Step p t events q s) :
    p = .reduce ∧ s = t.reduce ∨ p = .adjust ∧ q = .markZero ∧ s = t.adjust ∨ s.grid = t.grid := by
  cases h with
  | reduce => exact .inl ⟨rfl, rfl⟩
  | adjust => exact .inr (.inl ⟨rfl, rfl, rfl⟩)
  | augment h => exact .inr (.inr (of_augment h).2)
  | _ => exact .inr (.inr rfl)

theorem Step.grid_eq (h : Step p t events q s) (hreduce : p ≠ .reduce) (hadjust : p ≠ .adjust) :
    s.grid = t.grid := by
  rcases h.grid_cases with ⟨hr, -⟩ | ⟨ha, -⟩ | hgrid
  · exact absurd hr hreduce
  · exact absurd ha hadjust
  · exact hgrid

theorem Step.costs_eq (h : Step p t events q s) : s.costs = t.costs := by
  cases h with
  | adjust => exact costs_adjust t
  | augment h => exact (of_augment h).1
  | _ => rfl

/-- Matched lines stay matched. -/
theorem Step.free_of_free (h : Step p t events q s) (hp : Due p t) :
    (∀ r, s.matching.colOf.get r = none → t.matching.colOf.get r = none) ∧
      ∀ c, s.matching.rowOf.get c = none → t.matching.rowOf.get c = none := by
  cases h with
  | extend => exact Matching.free_of_free_extend t.grid t.matching
  | adjust =>
    rw [matching_adjust]
    exact ⟨fun _ ↦ id, fun _ ↦ id⟩
  | augment hs =>
    cases hp with
    | augment h hcols hz hr =>
      obtain ⟨e, rest, ha, hs'⟩ := h.augment_eq hz hr
      cases hs.symm.trans hs'
      refine ⟨fun i hi ↦ ?_, fun j hj ↦ ?_⟩
      · rw [← Option.not_isSome_iff_eq_none] at hi ⊢
        exact fun hsome ↦ hi ((ha.colOf_flip_isSome h.consistent i).mpr (.inr hsome))
      · rw [← Option.not_isSome_iff_eq_none] at hj ⊢
        exact fun hsome ↦ hj ((ha.rowOf_flip_isSome h.consistent j).mpr (.inr hsome))
  | _ => exact ⟨fun _ ↦ id, fun _ ↦ id⟩

theorem Due.nonneg (h : Due p t) (hp : p ≠ .reduce) (r c : Fin n) : Nonneg (t.grid r c) := by
  cases h with
  | reduce => exact absurd rfl hp
  | extend h => exact h.nonneg r c
  | coverMatched h => exact h.nonneg r c
  | markZero h => exact h.nonneg r c
  | adjust h => exact h.nonneg r c
  | augment h => exact h.nonneg r c
  | cover h => exact h.nonneg r c

theorem Due.ready_of_adjust (h : Due .adjust t) : t.Ready ∧ t.cover.allCols = false := by
  cases h with
  | adjust h hcols => exact ⟨h, hcols⟩

variable [Lawful α]

/-- Where an unmatched row crosses an unmatched column the entry is finite, and no larger than that
of another grid. -/
def Lowered (w : Grid α n) (t : Tableau α n) : Prop :=
  ∀ r c, t.matching.colOf.get r = none → t.matching.rowOf.get c = none →
    isFinite (t.grid r c) = true ∧ Lawful.value (t.grid r c) ≤ Lawful.value (w r c)

theorem Ready.lowered_adjust (h : t.Ready) (hw : t.Lowered w) : t.adjust.Lowered w := by
  intro r c hr hc
  refine ⟨h.adjust.finite r c hr hc, ?_⟩
  rw [matching_adjust] at hr hc
  obtain ⟨-, hle⟩ := hw r c hr hc
  cases hm : t.adjustment? with
  | none => rwa [adjust_of_none hm]
  | some m =>
    obtain ⟨hamount, -⟩ := h.amount_of_adjustment? hm
    rw [adjust_of_some hm]
    dsimp only
    rw [Grid.shift_of_uncovered (h.row_uncovered r hr) (h.col_uncovered c hc)]
    exact (Lawful.value_sub_le (h.isNumber r c) hamount.isFinite hamount.nonneg).trans hle

theorem Step.lowered (h : Step p t events q s) (hp : Due p t) (hne : p ≠ .reduce)
    (hw : t.Lowered w) : s.Lowered w := by
  rcases h.grid_cases with ⟨rfl, -⟩ | ⟨rfl, -, rfl⟩ | hgrid
  · exact absurd rfl hne
  · exact hp.ready_of_adjust.1.lowered_adjust hw
  · obtain ⟨hrows, hcols⟩ := h.free_of_free hp
    intro r c hr hc
    rw [hgrid]
    exact hw r c (hrows r hr) (hcols c hc)

theorem Path.lowered (h : Path p t events q s) (hp : Due p t) (hne : p ≠ .reduce)
    (hw : t.Lowered w) : s.Lowered w :=
  h.invariant (I := fun _ _ s ↦ s.Lowered w) []
    (fun hs hp hne hw ↦ hs.lowered hp hne hw) hp hne hw

/-- The least uncovered entry is a finite number that is not negative, and it is the amount of the
adjustment unless it is zero. -/
theorem Ready.exists_least (h : t.Ready) (hcols : t.cover.allCols = false) :
    (∃ r c, t.cover.rows.get r = false ∧ t.cover.cols.get c = false) ∧
      ∃ m, t.leastUncovered? = some m ∧ isFinite m = true ∧ Nonneg m ∧
        t.adjustment? = if 0 < m then some m else none := by
  obtain ⟨r, c, hr, hc, hfinite⟩ := h.exists_finite hcols
  refine ⟨⟨r, c, hr, hc⟩, ?_⟩
  obtain ⟨m, hm, ⟨i, j, -, -, rfl⟩, hle⟩ := Grid.leastUncovered?_eq_some h.isNumber hr hc
  have hmf := Lawful.isFinite_of_le (h.isNumber i j) hfinite (h.value_nonneg i j) (hle r c hr hc)
  refine ⟨_, hm, hmf, h.nonneg i j, ?_⟩
  rw [adjustment?, show t.leastUncovered? = some (t.grid i j) from hm]
  simp only [Option.filter, hmf, Bool.and_true, decide_eq_true_eq]

end Tableau

namespace CostMatrix

open Tableau

variable {α : Type} [Cost α] [Lawful α]

theorem lowered_of_path {costs : CostMatrix α} {t s : Tableau α costs.length}
    (h : costs.tableau = .ok t) {events : List (Event α)} {p : Phase costs.length}
    (hs : Path .reduce t events p s) (hp : p ≠ .reduce) : s.Lowered t.reduce.grid := by
  have hstart := ready_start h
  obtain ⟨hd, rfl⟩ := tableau_eq_ok.mp h
  refine (hs.of_ne_reduce hp).lowered (.extend hstart) nofun ?_
  intro r c _ _
  exact ⟨((admitted hd).reduce r c).2, le_rfl⟩

/-- Every adjustment of a search finds an uncovered cell and a finite least entry. All entries are
numbers throughout, and where unmatched lines cross they are finite and never rise above what the
reduction left. -/
theorem adjustments_finite {costs : CostMatrix Float} {t : Tableau Float costs.length}
    (h : costs.tableau = .ok t) :
    (∀ events s, Path .reduce t events .adjust s →
      (∃ r c, s.cover.rows.get r = false ∧ s.cover.cols.get c = false) ∧
        ∃ m, s.leastUncovered? = some m ∧ isFinite m = true ∧ Nonneg m ∧
          s.adjustment? = if 0 < m then some m else none) ∧
    (∀ events p s, Path .reduce t events p s →
      (∀ r c, isNumber (s.grid r c) = true) ∧
        ∀ r c, s.matching.colOf.get r = none → s.matching.rowOf.get c = none →
          isFinite (s.grid r c) = true ∧ (p ≠ .reduce → ¬t.reduce.grid r c < s.grid r c)) ∧
    (∀ r c, isNumber (t.grid.reduceRows r c) = true) ∧
    ∃ events o, Path .reduce t events .markZero o.tableau ∧
      o.tableau.cover.allCols = true ∧ costs.solve = .ok o := by
  have hstart := ready_start h
  obtain ⟨hd, ht⟩ := tableau_eq_ok.mp h
  have hadmitted := admitted hd
  refine ⟨?_, ?_, ?_, ?_⟩
  · intro events s hs
    obtain ⟨hready, hcols⟩ := (hs.due (.reduce hstart)).ready_of_adjust
    exact hready.exists_least hcols
  · intro events p s hs
    by_cases hp : p = .reduce
    · subst hp
      obtain ⟨-, -, rfl⟩ := hs.eq_of_reduce
      subst ht
      exact ⟨hadmitted.isNumber, fun r c _ _ ↦ ⟨hadmitted.finite r c, absurd rfl⟩⟩
    · have hnonneg := (hs.due (.reduce hstart)).nonneg hp
      refine ⟨fun r c ↦ (hnonneg r c).1, fun r c hr hc ↦ ?_⟩
      obtain ⟨hfinite, hle⟩ := lowered_of_path h hs hp r c hr hc
      refine ⟨hfinite, fun _ ↦ ?_⟩
      subst ht
      exact fun hlt ↦ not_lt.mpr hle
        ((Lawful.lt_iff (hadmitted.reduce r c).1.1 (hnonneg r c).1).mp hlt)
  · subst ht
    exact fun r c ↦ (hadmitted.reduceRows r c).1.1
  · obtain ⟨k, events, o, π, ho⟩ := hstart.exists_outcome
    exact ⟨events, o, ho.path hstart, ho.allCols, solve_of_tableau h ho.solve⟩

/-- A matrix whose search has to shift its grid after it has covered a row. -/
def contested : CostMatrix Float := [[0, 3, 0], [2, 0, 2], [1, 0, 3]]

def contestedTableau : Tableau Float 3 := ofGrid (Grid.ofLists contested (by decide))

theorem tableau_contested : contested.tableau = .ok contestedTableau :=
  tableau_eq_ok.mpr ⟨by decide +kernel, rfl⟩

def contestedCovered : Tableau Float 3 := (contestedTableau.start.mark (0, 2)).exchange 0 0

theorem path_contested :
    Path .reduce contestedTableau [.rowCovered 0 2] .adjust contestedCovered := by
  have hcols : contestedTableau.start.cover.allCols = false := by decide +kernel
  have hz : contestedTableau.start.zero? = some (0, 2) := by decide +kernel
  have hd : contestedTableau.start.matching.colOf.get 0 = some (0 : Fin 3).val := by
    decide +kernel
  exact ((path_start contestedTableau).tail (.matched hcols hz hd)).tail (.cover _ _)

/-- The adjustment that follows raises an entry and makes a zero in the unmatched row. -/
theorem path_contested_adjusted : Path .reduce contestedTableau [.rowCovered 0 2, .adjusted 1]
    .markZero contestedCovered.adjust := by
  have hevents : contestedCovered.adjustEvents = [.adjusted 1] := by decide +kernel
  have hpath := path_contested.tail (.adjust contestedCovered)
  rwa [hevents] at hpath

theorem adjustments_finite_contested : ∃ s m, contested.tableau = .ok contestedTableau ∧
    Path .reduce contestedTableau [.rowCovered 0 2] .adjust s ∧
      s.leastUncovered? = some m ∧ isFinite m = true ∧ s.adjustment? = some m := by
  obtain ⟨-, m, hm, hfinite, -, hadjust⟩ := (adjustments_finite tableau_contested).1 _ _
    path_contested
  have hsome : contestedCovered.adjustment?.isSome = true := by decide +kernel
  have hpos : 0 < m := by
    by_contra hneg
    exact Option.isSome_iff_ne_none.mp hsome (hadjust.trans (if_neg hneg))
  exact ⟨_, m, tableau_contested, path_contested, hm, hfinite, hadjust.trans (if_pos hpos)⟩

end CostMatrix

end LinearAssignment
