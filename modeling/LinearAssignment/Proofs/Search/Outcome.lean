import LinearAssignment.Proofs.Cost.Binary64
import LinearAssignment.Proofs.Matching.Perfect
import LinearAssignment.Proofs.Search.Run

/-!
The outcome of a search: a perfect matching, reached by a run with the invariant at every turn.
-/

namespace LinearAssignment

open Cost

namespace Tableau

variable {α : Type} {n : ℕ} [Cost α]

/-- An outcome, with the run that leads to it and the permutation that it consists of. -/
structure Reaches (t : Tableau α n) (k : ℕ) (events : List (Event α)) (o : Outcome α n)
    (π : Equiv.Perm (Fin n)) : Prop where
  solve : t.solve = .ok o
  run : Run k t.start events o.tableau
  allCols : o.tableau.cover.allCols = true
  ready : o.tableau.Ready
  perfect : o.tableau.matching.Perfect π
  total : o.total = Cost.sum ((List.finRange n).map fun r ↦ t.costs r (π r))
  events : o.events =
    .started n :: .seeded t.start.matching.size n :: events ++ [.finished n o.total]

theorem Run.le_turnLimit [Lawful α] {k : ℕ} {t s : Tableau α n} {events : List (Event α)}
    (h : Run k t events s) (ht : t.Ready) : k ≤ turnLimit n := by
  have hprogress := (h.progress_le ht).trans (h.ready ht).progress_le
  have hsquare : n * (n + 1) ≤ (n + 1) * (n + 1) * (n + 1) := by nlinarith
  rw [turnLimit]
  omega

theorem Ready.exists_outcome [Lawful α] {t : Tableau α n} (h : t.start.Ready) :
    ∃ k events o π, Reaches t k events o π := by
  obtain ⟨k, events, s, hrun, hcols⟩ := h.exists_run
  have hs := hrun.ready h
  obtain ⟨π, hπ⟩ := hs.consistent.exists_perfect
    (Matching.size_eq_iff.mp (hs.allCols_iff.mp hcols))
  have hcosts : s.costs = t.costs := hrun.costs_eq h
  let total := Cost.sum ((List.finRange n).map fun r ↦ t.costs r (π r))
  refine ⟨k, events, ⟨s, total, .started n :: .seeded t.start.matching.size n :: events ++
    [.finished n total]⟩, π, ?_, hrun, hcols, hs, hπ, rfl, rfl⟩
  rw [Tableau.solve, hrun.turns_eq hcols (hrun.le_turnLimit h)]
  change ((CostMatrix.total s.costs.toLists s.matching.pairs).bind fun total ↦ .ok _) = _
  rw [hπ.total_eq, hcosts]
  rfl

end Tableau

namespace CostMatrix

open Tableau

theorem solve_of_tableau {α : Type} [Cost α] {costs : CostMatrix α} {t : Tableau α costs.length}
    (h : costs.tableau = .ok t) {o : Outcome α costs.length} (ho : t.solve = .ok o) :
    costs.solve = .ok o := by
  rw [solve, h]
  exact congrArg (Except.mapError Failure.broken) ho

/-- A matrix is solved as its grid is, whatever the size is called. -/
theorem exists_solve_ofLists {α : Type} [Cost α] {n : ℕ} {costs : CostMatrix α}
    (h : Grid.Square n costs) (hd : costs.defect? = none) {o : Outcome α n}
    (ho : (ofGrid (Grid.ofLists costs h)).solve = .ok o) :
    ∃ o', costs.solve = .ok o' ∧ o'.pairs = o.pairs := by
  obtain rfl := h.1
  exact ⟨o, solve_of_tableau (tableau_eq_ok.mpr ⟨hd, rfl⟩) ho, rfl⟩

theorem total_pairs {α : Type} [Cost α] {costs : CostMatrix α} {t : Tableau α costs.length}
    (h : costs.tableau = .ok t) {k : ℕ} {events : List (Event α)} {o : Outcome α costs.length}
    {π : Equiv.Perm (Fin costs.length)} (ho : Reaches t k events o π) :
    costs.total o.pairs = .ok o.total := by
  obtain ⟨hd, rfl⟩ := tableau_eq_ok.mp h
  have htotal := ho.perfect.total_eq (Grid.ofLists costs (square_of_defect? hd))
  rw [Grid.toLists_ofLists] at htotal
  rw [ho.total]
  exact htotal

/-- A matrix whose search needs adjustments and exchanges. -/
def products : CostMatrix Float := [[1, 2, 3], [2, 4, 6], [3, 6, 9]]

theorem defect?_products : products.defect? = none := by decide +kernel

/-- The invariant holds before every turn, every turn before the end succeeds, and the search comes
to its end without a position out of range. -/
theorem run_sound {costs : CostMatrix Float} {t : Tableau Float costs.length}
    (h : costs.tableau = .ok t) :
    (∀ k events s, Run k t.start events s →
      s.Sound ∧ s.cover.coveredRows.card + s.cover.coveredCols.card = s.matching.size ∧
        (s.cover.allCols = false → ∃ u later, s.turn = .ok (u, later))) ∧
      ∃ k events o, Run k t.start events o.tableau ∧ o.tableau.cover.allCols = true ∧
        costs.solve = .ok o := by
  have hstart := ready_start h
  constructor
  · intro k events s hrun
    have hs := hrun.ready hstart
    refine ⟨hs.toSound, hs.card_cover, fun hcols ↦ ?_⟩
    obtain ⟨u, later, hu, -⟩ := hs.exists_turn hcols
    exact ⟨u, _, hu⟩
  · obtain ⟨k, events, o, π, ho⟩ := hstart.exists_outcome
    exact ⟨k, events, o, ho.run, ho.allCols, solve_of_tableau h ho.solve⟩

theorem run_sound_products : ∃ t, products.tableau = .ok t ∧ t.start.Sound ∧
    t.start.cover.allCols = false ∧ ∃ u later, t.start.turn = .ok (u, later) := by
  have ht := tableau_eq_ok.mpr ⟨defect?_products, rfl⟩
  obtain ⟨hsound, -, hturn⟩ := (run_sound ht).1 0 [] _ (.zero _)
  have hcols : (ofGrid (Grid.ofLists products
      (square_of_defect? defect?_products))).start.cover.allCols = false := by decide +kernel
  exact ⟨_, ht, hsound, hcols, hturn hcols⟩

/-- The pairs of an outcome are a perfect matching in the order of the rows, and both tables of the
last tableau hold them. -/
theorem solve_perfect {costs : CostMatrix Float} {t : Tableau Float costs.length}
    (h : costs.tableau = .ok t) :
    ∃ o, costs.solve = .ok o ∧ o.pairs.map Prod.fst = List.range costs.length ∧
      (o.pairs.map Prod.snd).Perm (List.range costs.length) ∧
      (∀ (r : Fin costs.length) (c : ℕ),
        (r.val, c) ∈ o.pairs ↔ o.tableau.matching.colOf.get r = some c) ∧
      o.tableau.matching.Consistent ∧ o.tableau.matching.pairsByCol.length = costs.length := by
  obtain ⟨k, events, o, π, ho⟩ := (ready_start h).exists_outcome
  have hlength := congrArg List.length ho.perfect.pairsByCol_eq
  exact ⟨o, solve_of_tableau h ho.solve, ho.perfect.map_fst_pairs, ho.perfect.map_snd_pairs,
    fun r c ↦ ho.perfect.mem_pairs, ho.ready.consistent, by simpa using hlength⟩

theorem solve_perfect_products : ∃ o, products.solve = .ok o ∧
    o.pairs.map Prod.fst = [0, 1, 2] ∧ (o.pairs.map Prod.snd).Perm [0, 1, 2] := by
  obtain ⟨o, ho, hrows, hcols, -⟩ := solve_perfect (tableau_eq_ok.mpr ⟨defect?_products, rfl⟩)
  exact ⟨o, ho, hrows, hcols⟩

end CostMatrix

end LinearAssignment
