import LinearAssignment.Problem
import LinearAssignment.Proofs.Search.Integral

/-!
What the report of a problem says. A problem is solved unless its costs are not admitted, and the
report of its solution describes a perfect matching with the costs as they were given.
-/

namespace LinearAssignment

open Binary64 Cost

theorem CostMatrix.cost_of_square {α : Type} {n : ℕ} {costs : CostMatrix α}
    (h : Grid.Square n costs) (r c : Fin n) :
    costs.cost r c = .ok (Grid.ofLists costs h r c) := by
  obtain ⟨vs, hvs, hv⟩ := Option.bind_eq_some_iff.mp (Grid.ofLists_value costs h r c)
  have hrow : entry costs r = .ok vs := by simp [entry, hvs]
  have hcol : entry vs c = .ok (Grid.ofLists costs h r c) := by simp [entry, hv]
  rw [cost, hrow]
  exact hcol

namespace Report

variable {n : ℕ} {π : Equiv.Perm (Fin n)}

/-- The report of a permutation: its assignments row by row, and the sum of their costs from the
first row to the last. -/
structure Describes (r : Report) (costs : CostMatrix Float) (g : Grid Float n)
    (π : Equiv.Perm (Fin n)) : Prop where
  assignments : r.assignments = (List.finRange n).map fun i ↦ ⟨i.val, (π i).val⟩
  colOf_row (i : Fin n) : r.colOf? i = some (π i).val
  colOf_beyond (row : ℕ) (h : n ≤ row) : r.colOf? row = none
  cost (i : Fin n) : costs.cost i (π i) = .ok (g i (π i))
  total : r.totalCost = ((List.finRange n).map fun i ↦ g i (π i)).foldl (· + ·) (-0.0)

theorem describes {costs : CostMatrix Float} (h : Grid.Square n costs) (name : Option String) :
    Describes ⟨name, (List.finRange n).map fun i ↦ ⟨i.val, (π i).val⟩,
      Cost.sum ((List.finRange n).map fun i ↦ Grid.ofLists costs h i (π i))⟩
      costs (Grid.ofLists costs h) π where
  assignments := rfl
  colOf_row i := by
    have hfind : ((List.finRange n).find? fun j ↦ j.val == i.val) = some i := by
      rw [List.find?_eq_some_iff_getElem]
      refine ⟨beq_self_eq_true _, i.val, by simp, by simp, fun j hj ↦ ?_⟩
      simp [hj.ne]
    rw [colOf?, List.find?_map, Function.comp_def, hfind]
    rfl
  colOf_beyond row hrow := by
    have hfind : ((List.finRange n).find? fun j ↦ j.val == row) = none := by
      rw [List.find?_eq_none]
      intro j _
      simp [(j.isLt.trans_le hrow).ne]
    rw [colOf?, List.find?_map, Function.comp_def, hfind]
    rfl
  cost i := CostMatrix.cost_of_square h i (π i)
  total := rfl

end Report

namespace Tableau

variable {n : ℕ} {t : Tableau Float n} {g : Grid ℤ n} {k : ℕ} {events : List (Event Float)}
  {o : Outcome Float n} {π : Equiv.Perm (Fin n)}

/-- Over integral costs the permutation that is found is a cheapest one. -/
theorem Reaches.sum_le (ho : Reaches t k events o π) (ht : t.start.Ready)
    (hagree : t.Agree IsInteger (ofGrid g)) (hb : ∀ r c, |g r c| ≤ 2 ^ 51)
    (σ : Equiv.Perm (Fin n)) : ∑ r, g r (π r) ≤ ∑ r, g r (σ r) := by
  have hs := Tableau.ready_start g.admitted_of_exact
  have hlock := hagree.lockstep mirrors_isInteger (bounded_ofGrid hb) hs
  obtain ⟨k', events', o', π', ho'⟩ := hs.exists_outcome
  obtain ⟨-, houtcome⟩ := hlock.outcome ht hs ho ho'
  obtain rfl : π = π' := ho.perfect.unique (houtcome.tableau.matching ▸ ho'.perfect)
  exact (ho'.cheapest hs).le σ

end Tableau

namespace Problem

open CostMatrix Tableau

variable {p : Problem}

theorem solve_of_defect {d : Defect} (h : p.costs.tableau = .error d) :
    p.solve = .error (.unsolved (.invalid d)) := by
  rw [Problem.solve, CostMatrix.solve, h]

theorem solve_of_reaches {t : Tableau Float p.costs.length} (h : p.costs.tableau = .ok t) {k : ℕ}
    {events : List (Event Float)} {o : Outcome Float p.costs.length}
    {π : Equiv.Perm (Fin p.costs.length)} (ho : Reaches t k events o π) :
    p.solve = .ok ⟨p.name, o.pairs.map fun (row, col) ↦ ⟨row, col⟩, o.total⟩ := by
  rw [Problem.solve, solve_of_tableau h ho.solve]
  dsimp only
  rw [total_pairs h ho]

theorem solve_eq_error_iff {e : Error} : p.solve = .error e ↔
    ∃ d, p.costs.tableau = .error d ∧ e = .unsolved (.invalid d) := by
  constructor
  · intro he
    cases ht : p.costs.tableau with
    | error d => exact ⟨d, rfl, Except.error.inj (he.symm.trans (solve_of_defect ht))⟩
    | ok t =>
      obtain ⟨k, events, o, π, ho⟩ := (CostMatrix.ready_start ht).exists_outcome
      cases he.symm.trans (solve_of_reaches ht ho)
  · rintro ⟨d, hd, rfl⟩
    exact solve_of_defect hd

/-- A problem is unsolved just when its costs are not admitted, for the defect that they have.
Otherwise its report bears its name, describes the pairs of the search, and over integral costs
that cannot exceed the exact range no permutation has a smaller total. -/
theorem solve_describes (p : Problem) :
    (∀ e, p.solve = .error e ↔
      ∃ d, p.costs.tableau = .error d ∧ e = .unsolved (.invalid d)) ∧
    ∀ t, p.costs.tableau = .ok t → ∃ o r π, p.costs.solve = .ok o ∧ p.solve = .ok r ∧
      r.name = p.name ∧ (r.assignments.map fun a ↦ (a.row, a.col)) = o.pairs ∧
      r.Describes p.costs t.costs π ∧
      ∀ g : Grid ℤ p.costs.length, t.costs.Agree IsInteger g → (∀ r c, |g r c| ≤ 2 ^ 51) →
        (∀ r c, p.costs.length * |g r c| ≤ 2 ^ 53) →
          IsInteger r.totalCost (∑ i, g i (π i)) ∧ ∀ σ : Equiv.Perm (Fin p.costs.length),
            ∑ i, g i (π i) ≤ ∑ i, g i (σ i) ∧
              ¬Cost.sum ((List.finRange _).map fun i ↦ t.costs i (σ i)) < r.totalCost := by
  refine ⟨fun e ↦ solve_eq_error_iff, fun t ht ↦ ?_⟩
  have hstart := CostMatrix.ready_start ht
  obtain ⟨k, events, o, π, ho⟩ := hstart.exists_outcome
  obtain ⟨hd, rfl⟩ := tableau_eq_ok.mp ht
  have hpairs : o.pairs = (List.finRange p.costs.length).map fun i ↦ (i.val, (π i).val) :=
    ho.perfect.pairs_eq
  have hdescribes := Report.describes (square_of_defect? hd) p.name (π := π)
  refine ⟨o, _, π, solve_of_tableau ht ho.solve, solve_of_reaches ht ho, rfl, ?_, ?_, ?_⟩
  · simp [Function.comp_def]
  · rw [hpairs, ho.total, List.map_map]
    exact hdescribes
  · intro g hg hb hn
    have hbound (σ) := Grid.sum_abs_le (length_pos ht) hn σ
    have htotal := ho.isInteger_total hg (hbound π)
    refine ⟨htotal, fun σ ↦ ?_⟩
    have hle := ho.sum_le hstart (agree_ofGrid hg) hb σ
    exact ⟨hle, fun hlt ↦ hle.not_gt
      ((lt_iff_of_integer? (hg.isInteger_sum (hbound σ)) htotal).mp hlt)⟩

def skewed : CostMatrix Float := [[4, 1, 3], [2, 0, 5], [3, 2, 2]]

theorem defect?_skewed : skewed.defect? = none := by decide +kernel

def skewedIntegers : Grid ℤ 3 := Grid.ofLists [[4, 1, 3], [2, 0, 5], [3, 2, 2]] (by decide)

/-- A problem whose costs differ from those with rows and columns exchanged, and one without
costs. -/
theorem solve_describes_skewed :
    (∃ r, ∃ π : Equiv.Perm (Fin 3), (withName (ofCosts skewed) "skewed").solve = .ok r ∧
      r.name = some "skewed" ∧ (∀ i : Fin 3, r.colOf? i = some (π i).val) ∧ r.colOf? 3 = none ∧
      IsInteger r.totalCost (∑ i, skewedIntegers i (π i)) ∧
      ∀ σ : Equiv.Perm (Fin 3), ∑ i, skewedIntegers i (π i) ≤ ∑ i, skewedIntegers i (σ i)) ∧
    (ofCosts []).solve = .error (.unsolved (.invalid .empty)) := by
  obtain ⟨-, hsolve⟩ := solve_describes (withName (ofCosts skewed) "skewed")
  obtain ⟨o, r, π, -, hr, hname, -, hdescribes, hintegral⟩ :=
    hsolve _ (tableau_eq_ok.mpr ⟨defect?_skewed, rfl⟩)
  obtain ⟨htotal, hle⟩ := hintegral skewedIntegers (by unfold Grid.Agree; decide +kernel)
    (by decide +kernel) (by decide +kernel)
  exact ⟨⟨r, π, hr, hname, hdescribes.colOf_row, hdescribes.colOf_beyond 3 le_rfl, htotal,
    fun σ ↦ (hle σ).1⟩, ((solve_describes (ofCosts [])).1 _).mpr ⟨.empty, rfl, rfl⟩⟩

end Problem

end LinearAssignment
