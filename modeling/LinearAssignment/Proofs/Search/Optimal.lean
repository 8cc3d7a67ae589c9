import LinearAssignment.Proofs.Search.Outcome
import LinearAssignment.Proofs.Tableau.Potential
import Mathlib.Algebra.BigOperators.Fin

/-!
Optimality. In exact arithmetic the search finds a perfect matching whose cost no other falls short
of.
-/

namespace LinearAssignment

open Cost

/-- A perfect matching whose total cost no permutation falls short of. -/
structure Outcome.Cheapest {α : Type} {n : ℕ} [AddCommMonoid α] [LE α] (o : Outcome α n)
    (g : Grid α n) (π : Equiv.Perm (Fin n)) : Prop where
  pairs : o.pairs = (List.finRange n).map fun r ↦ (r.val, (π r).val)
  total : o.total = ∑ r, g r (π r)
  le (σ : Equiv.Perm (Fin n)) : ∑ r, g r (π r) ≤ ∑ r, g r (σ r)

namespace Tableau

variable {α : Type} {n : ℕ} [Cost α] [Exact α]

theorem Run.priced {k : ℕ} {t s : Tableau α n} {events : List (Event α)} (h : Run k t events s)
    (ht : t.Ready) (hp : t.Priced) : s.Priced :=
  (h.invariant (fun hr hp hcols hs ↦ by
    obtain ⟨later, -, hplaced⟩ := hr.placed_of_turn hcols hs
    exact hp.settle.placed hplaced) ht hp).2

theorem Reaches.value_grid {t : Tableau α n} {k : ℕ} {events : List (Event α)} {o : Outcome α n}
    {π : Equiv.Perm (Fin n)} (h : Reaches t k events o π) (r : Fin n) :
    Lawful.value (o.tableau.grid r (π r)) = 0 := by
  rw [← beq_zero_iff (h.ready.isNumber r (π r))]
  exact h.ready.zero_of_matched r (π r) (h.perfect r).1

theorem Reaches.weight_le {g : Grid α n} {k : ℕ} {events : List (Event α)} {o : Outcome α n}
    {π : Equiv.Perm (Fin n)} (h : Reaches (ofGrid g) k events o π) (hg : (ofGrid g).start.Ready)
    (σ : Equiv.Perm (Fin n)) : g.weight π ≤ g.weight σ := by
  obtain ⟨u, v, hoffset⟩ := h.run.priced hg (priced_ofGrid g).reduce
  rw [h.run.costs_eq hg] at hoffset
  exact hoffset.weight_le h.ready.value_nonneg h.value_grid σ

theorem Reaches.value_total {t : Tableau α n} {k : ℕ} {events : List (Event α)} {o : Outcome α n}
    {π : Equiv.Perm (Fin n)} (h : Reaches t k events o π) :
    Lawful.value o.total = t.costs.weight π := by
  rw [h.total, value_sum, List.map_map, Grid.weight, Fin.sum_univ_def]
  rfl

end Tableau

namespace CostMatrix

theorem defect?_of_square {α : Type} [Cost α] [Exact α] {costs : CostMatrix α}
    (h : Grid.Square costs.length costs) (hne : costs ≠ []) : costs.defect? = none := by
  refine defect?_eq_none_iff.mpr ⟨hne, fun r ↦ rowDefect?_eq_none_iff.mpr
    ⟨h.2 _ (List.getElem_mem _), fun v _ ↦ Exact.isFinite_all v, ?_⟩⟩
  unfold spanFits
  split
  · exact Exact.isFinite_all _
  · rfl

theorem exists_solve {α : Type} [Cost α] [Exact α] {costs : CostMatrix α}
    (h : Grid.Square costs.length costs) (hne : costs ≠ []) :
    ∃ o π, costs.solve = .ok o ∧
      o.pairs = (List.finRange costs.length).map (fun r ↦ (r.val, (π r).val)) ∧
      Lawful.value o.total = (Grid.ofLists costs h).weight π ∧
      ∀ σ, (Grid.ofLists costs h).weight π ≤ (Grid.ofLists costs h).weight σ := by
  have ht := tableau_eq_ok.mpr ⟨defect?_of_square h hne, rfl⟩
  have hstart := ready_start ht
  obtain ⟨k, events, o, π, ho⟩ := hstart.exists_outcome
  exact ⟨o, π, solve_of_tableau ht ho.solve, ho.perfect.pairs_eq, ho.value_total,
    ho.weight_le hstart⟩

/-- Over the integers and over the rationals every square matrix has an outcome, and it is
cheapest. -/
theorem solve_cheapest :
    (∀ (costs : CostMatrix ℤ) (h : Grid.Square costs.length costs), costs ≠ [] →
      ∃ o π, costs.solve = .ok o ∧ o.Cheapest (Grid.ofLists costs h) π) ∧
    ∀ (costs : CostMatrix ℚ) (h : Grid.Square costs.length costs), costs ≠ [] →
      ∃ o π, costs.solve = .ok o ∧ o.Cheapest (Grid.ofLists costs h) π := by
  constructor
  · intro costs h hne
    have hweight (σ : Equiv.Perm (Fin costs.length)) : (Grid.ofLists costs h).weight σ =
        ((∑ r, Grid.ofLists costs h r (σ r) : ℤ) : ℚ) := (Int.cast_sum _ _).symm
    obtain ⟨o, π, ho, hpairs, htotal, hle⟩ := exists_solve h hne
    simp only [hweight] at htotal hle
    exact ⟨o, π, ho, hpairs, Int.cast_injective htotal, fun σ ↦ Int.cast_le.mp (hle σ)⟩
  · intro costs h hne
    obtain ⟨o, π, ho, hpairs, htotal, hle⟩ := exists_solve h hne
    exact ⟨o, π, ho, hpairs, htotal, hle⟩

theorem solve_cheapest_ties :
    (∃ o π, CostMatrix.solve ([[-1, 2, 2], [2, 5, 5], [0, 3, -7]] : CostMatrix ℤ) = .ok o ∧
      o.Cheapest (Grid.ofLists [[-1, 2, 2], [2, 5, 5], [0, 3, -7]] (by decide)) π) ∧
    ∃ o π, CostMatrix.solve ([[1 / 2, 1 / 3], [-1 / 2, -2 / 3]] : CostMatrix ℚ) = .ok o ∧
      o.Cheapest (Grid.ofLists [[1 / 2, 1 / 3], [-1 / 2, -2 / 3]] (by decide)) π :=
  ⟨solve_cheapest.1 _ (by decide) (by simp), solve_cheapest.2 _ (by decide) (by simp)⟩

end CostMatrix

end LinearAssignment
