import LinearAssignment.Proofs.Binary64.Integral
import LinearAssignment.Proofs.Search.Growth
import LinearAssignment.Proofs.Search.Lockstep
import LinearAssignment.Proofs.Search.Optimal

/-!
Integral costs. If no cost exceeds `2 ^ 51` in magnitude, then all entries of the search over the
integers stay within `2 ^ 53`, where binary64 numbers are as good as integers: the search over the
numbers does what the search over the integers does, and finds a cheapest perfect matching.
-/

namespace LinearAssignment

open Binary64 Cost

variable {n : ℕ} {g : Grid ℤ n}

theorem Grid.sum_abs_le (hn : 0 < n) (h : ∀ r c, n * |g r c| ≤ 2 ^ 53)
    (π : Equiv.Perm (Fin n)) : ∑ r, |g r (π r)| ≤ 2 ^ 53 := by
  have hsum : n * ∑ r, |g r (π r)| ≤ (n : ℤ) * 2 ^ 53 := by
    rw [Finset.mul_sum]
    calc ∑ r, n * |g r (π r)| ≤ ∑ _ : Fin n, 2 ^ 53 := Finset.sum_le_sum fun r _ ↦ h r (π r)
      _ = n * 2 ^ 53 := by simp
  exact le_of_mul_le_mul_left hsum (by exact_mod_cast hn)

theorem Grid.Agree.isInteger_sum {w : Grid Float n} (hw : w.Agree IsInteger g)
    {π : Equiv.Perm (Fin n)} (hπ : ∑ r, |g r (π r)| ≤ 2 ^ 53) :
    IsInteger (Cost.sum ((List.finRange n).map fun r ↦ w r (π r))) (∑ r, g r (π r)) := by
  rw [Fin.sum_univ_def] at hπ ⊢
  refine Binary64.isInteger_sum (hw.map (List.finRange n) id π) ?_
  rwa [List.map_map]

namespace Tableau

theorem abs_le_of_value {z : ℤ} (h : 0 ≤ Lawful.value z) (h' : Lawful.value z ≤ 2 * 2 ^ 52) :
    |z| ≤ 2 ^ 53 := by
  have hlow : 0 ≤ z := Int.cast_nonneg_iff.mp h
  rw [abs_of_nonneg hlow]
  have hhigh : (z : ℚ) ≤ (2 ^ 53 : ℤ) := h'.trans (by norm_num)
  exact Int.cast_le.mp hhigh

theorem bounded_ofGrid (hb : ∀ r c, |g r c| ≤ 2 ^ 51) : (ofGrid g).Bounded (|·| ≤ 2 ^ 53) := by
  have hspread (r c d : Fin n) : Lawful.value (g r c) - Lawful.value (g r d) ≤ 2 ^ 52 := by
    have hdiff : g r c - g r d ≤ 2 ^ 52 := by
      have hc := abs_le.mp (hb r c)
      have hd := abs_le.mp (hb r d)
      omega
    have hcast : ((g r c - g r d : ℤ) : ℚ) ≤ (2 ^ 52 : ℤ) := Int.cast_le.mpr hdiff
    rw [Int.cast_sub] at hcast
    exact hcast.trans (by norm_num)
  constructor
  · intro r c
    have hle := Grid.value_reduceRows_le hspread r c
    exact abs_le_of_value (nonneg_iff.mp (g.admitted_of_exact.reduceRows r c).1).2
      (hle.trans (by norm_num))
  · intro events p u h hp r c
    obtain ⟨hlow, hhigh⟩ := (value_mem_of_path hspread r.pos h hp).2 r c
    exact abs_le_of_value hlow hhigh

theorem Reaches.cheapest {k : ℕ} {events : List (Event ℤ)} {o : Outcome ℤ n}
    {π : Equiv.Perm (Fin n)} (h : Reaches (ofGrid g) k events o π)
    (hg : (ofGrid g).start.Ready) : o.Cheapest g π where
  pairs := h.perfect.pairs_eq
  total := Int.cast_injective (α := ℚ) (h.value_total.trans (Int.cast_sum _ _).symm)
  le σ := by
    have hle := h.weight_le hg σ
    have hcast (σ : Equiv.Perm (Fin n)) : g.weight σ = ((∑ r, g r (σ r) : ℤ) : ℚ) :=
      (Int.cast_sum _ _).symm
    rw [hcast, hcast] at hle
    exact Int.cast_le.mp hle

theorem Reaches.isInteger_total {t : Tableau Float n} {k : ℕ} {events : List (Event Float)}
    {o : Outcome Float n} {π : Equiv.Perm (Fin n)} (h : Reaches t k events o π)
    (hg : t.costs.Agree IsInteger g) (hπ : ∑ r, |g r (π r)| ≤ 2 ^ 53) :
    IsInteger o.total (∑ r, g r (π r)) := by
  rw [h.total]
  exact hg.isInteger_sum hπ

end Tableau

namespace CostMatrix

open Tableau

/-- Over integral costs of at most `2 ^ 51` the search does what the search over the integers does.
Its pairs are cheapest, and their total is exact if no sum of costs can exceed `2 ^ 53`. -/
theorem solve_integral {costs : CostMatrix Float} {t : Tableau Float costs.length}
    (h : costs.tableau = .ok t) {g : Grid ℤ costs.length} (hg : t.costs.Agree IsInteger g)
    (hb : ∀ r c, |g r c| ≤ 2 ^ 51) :
    t.Lockstep IsInteger (ofGrid g) ∧ ∃ o o' π, costs.solve = .ok o ∧ (ofGrid g).solve = .ok o' ∧
      (∃ events events', Abreast t (ofGrid g) events events' .markZero o.tableau o'.tableau) ∧
      o.Agree IsInteger o' ∧ o.pairs = o'.pairs ∧ o'.Cheapest g π ∧
        ((∀ r c, costs.length * |g r c| ≤ 2 ^ 53) →
          costs.total o.pairs = .ok o.total ∧ IsInteger o.total o'.total) := by
  have ht := ready_start h
  have hs := Tableau.ready_start g.admitted_of_exact
  have hagree : t.Agree IsInteger (ofGrid g) := by
    obtain ⟨hd, rfl⟩ := tableau_eq_ok.mp h
    exact agree_ofGrid hg
  have hlock := hagree.lockstep mirrors_isInteger (bounded_ofGrid hb) hs
  obtain ⟨k, events, o, π, ho⟩ := ht.exists_outcome
  obtain ⟨k', events', o', π', ho'⟩ := hs.exists_outcome
  obtain ⟨hpaths, houtcome⟩ := hlock.outcome ht hs ho ho'
  obtain rfl : π = π' := ho.perfect.unique (houtcome.tableau.matching ▸ ho'.perfect)
  have hcheapest := ho'.cheapest hs
  refine ⟨hlock, o, o', π, solve_of_tableau h ho.solve, ho'.solve, ⟨events, events', hpaths⟩,
    houtcome, congrArg Matching.pairs houtcome.tableau.matching, hcheapest, fun hn ↦ ?_⟩
  refine ⟨total_pairs h ho, ?_⟩
  rw [hcheapest.total]
  exact ho.isInteger_total hg (Grid.sum_abs_le (length_pos h) hn π)

/-- Costs of the greatest magnitude. The search raises an entry above their range. -/
def extremes : CostMatrix Float :=
  [[-2251799813685248, 2251799813685248, -2251799813685248], [2, 0, 2], [1, 0, 3]]

def extremeIntegers : Grid ℤ 3 :=
  Grid.ofLists [[-2251799813685248, 2251799813685248, -2251799813685248], [2, 0, 2], [1, 0, 3]]
    (by decide)

theorem solve_integral_extremes : ∃ o o' π, extremes.solve = .ok o ∧
    (ofGrid extremeIntegers).solve = .ok o' ∧ o.pairs = o'.pairs ∧
      o'.Cheapest extremeIntegers π ∧ IsInteger o.total o'.total := by
  have ht := tableau_eq_ok.mpr ⟨(by decide +kernel : extremes.defect? = none), rfl⟩
  obtain ⟨-, o, o', π, ho, ho', -, -, hpairs, hcheapest, htotal⟩ := solve_integral ht
    (g := extremeIntegers) (by unfold Grid.Agree; decide +kernel) (by decide +kernel)
  exact ⟨o, o', π, ho, ho', hpairs, hcheapest, (htotal (by decide +kernel)).2⟩

end CostMatrix

end LinearAssignment
