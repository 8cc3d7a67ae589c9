import LinearAssignment.Proofs.Search.Outcome

/-!
Termination. A turn looks for a zero until it finds one, with an adjustment after each failure. One
adjustment is enough, and `n * (n + 1) / 2` turns are enough for a search of size `n`.
-/

namespace LinearAssignment

open Cost

namespace Tableau

variable {α : Type} {n : ℕ} [Cost α]

/-- The zero that is found, and the tableau that marks it, after `k` failures with an adjustment
each. No limit is set to the failures. -/
inductive Finds : ℕ → Tableau α n → Cell n → Tableau α n → Prop
  | found {t s : Tableau α n} {p : Cell n} (h : t.markZero = (some p, s)) : Finds 0 t p s
  | retry {k : ℕ} {t u s : Tableau α n} {p : Cell n} (h : t.markZero = (none, u))
      (hs : Finds k u.adjust p s) : Finds (k + 1) t p s

namespace Finds

variable {k : ℕ} {t s : Tableau α n} {p : Cell n}

theorem unique (h : Finds k t p s) {k' : ℕ} {p' : Cell n} {s' : Tableau α n}
    (h' : Finds k' t p' s') : k = k' ∧ p = p' ∧ s = s' := by
  induction h generalizing k' with
  | found h =>
    cases h' with
    | found h' =>
      cases h.symm.trans h'
      exact ⟨rfl, rfl, rfl⟩
    | retry h' => cases h.symm.trans h'
  | retry h _ ih =>
    cases h' with
    | found h' => cases h.symm.trans h'
    | retry h' hs' =>
      cases h.symm.trans h'
      obtain ⟨rfl, rfl, rfl⟩ := ih hs'
      exact ⟨rfl, rfl, rfl⟩

end Finds

theorem exists_finds {t : Tableau α n} {p : Cell n} (h : t.settle.zero? = some p) :
    ∃ k ≤ 1, Finds k t p (t.settle.mark p) := by
  cases hz : t.zero? with
  | some q =>
    rw [(settle_of_zero? hz).1] at h ⊢
    exact ⟨0, zero_le_one, .found (markZero_of_some h)⟩
  | none =>
    rw [(settle_of_zero?_eq_none hz).1] at h ⊢
    exact ⟨1, le_rfl, .retry (markZero_of_none hz) (.found (markZero_of_some h))⟩

end Tableau

namespace CostMatrix

open Tableau

/-- Every turn before the end finds a zero with at most one adjustment, and augments or exchanges.
There are at most `n * (n + 1) / 2` turns, as many of them augment as rows are unmatched at first,
and the search succeeds. -/
theorem solve_terminates {costs : CostMatrix Float} {t : Tableau Float costs.length}
    (h : costs.tableau = .ok t) :
    (∀ k events s, Run k t.start events s → k ≤ costs.length * (costs.length + 1) / 2 ∧
      (s.cover.allCols = false → (∃ j p v, Finds j s p v) ∧ ∀ j p v, Finds j s p v → j ≤ 1 ∧
        ∃ u later, v.place p = .ok (u, later) ∧ s.turn = .ok (u, s.settleEvents ++ later) ∧
          (Augments s u (s.settleEvents ++ later) ∨
            ∃ r c, Exchanges s u (s.settleEvents ++ later) r c))) ∧
      ∃ k events o, Run k t.start events o.tableau ∧ o.tableau.cover.allCols = true ∧
        costs.solve = .ok o ∧
        t.start.matching.size + o.events.countP Event.isAugmented = costs.length := by
  have hstart := ready_start h
  constructor
  · intro k events s hrun
    have hs := hrun.ready hstart
    refine ⟨?_, fun hcols ↦ ?_⟩
    · have hprogress := (hrun.progress_le hstart).trans hs.progress_le
      omega
    · obtain ⟨u, later, hturn, hplaced⟩ := hs.exists_turn hcols
      obtain ⟨p, hp, hplace⟩ := hplaced.exists_zero
      obtain ⟨j, hj, hfinds⟩ := exists_finds hp
      refine ⟨⟨j, p, _, hfinds⟩, fun j' p' v hfinds' ↦ ?_⟩
      obtain ⟨rfl, rfl, rfl⟩ := hfinds.unique hfinds'
      exact ⟨hj, u, later, hplace, hturn, hplaced.augments_or_exchanges hs.settle⟩
  · obtain ⟨k, events, o, π, ho⟩ := hstart.exists_outcome
    have hcount := ho.run.countP_eq hstart
    have hend : o.events.countP Event.isAugmented = events.countP Event.isAugmented := by
      rw [ho.events]
      simp [Event.isAugmented]
    rw [ho.ready.allCols_iff.mp ho.allCols] at hcount
    exact ⟨k, events, o, ho.run, ho.allCols, solve_of_tableau h ho.solve, hend ▸ hcount⟩

theorem solve_terminates_products : ∃ t o, products.tableau = .ok t ∧ products.solve = .ok o ∧
    t.start.matching.size + o.events.countP Event.isAugmented = 3 ∧
    t.start.cover.allCols = false ∧ ∃ j p v, Finds j t.start p v := by
  have ht := tableau_eq_ok.mpr ⟨defect?_products, rfl⟩
  obtain ⟨hrun, -, -, o, -, -, ho, hcount⟩ := solve_terminates ht
  have hcols : (ofGrid (Grid.ofLists products
      (square_of_defect? defect?_products))).start.cover.allCols = false := by decide +kernel
  exact ⟨_, o, ht, ho, hcount, hcols, ((hrun 0 [] _ (.zero _)).2 hcols).1⟩

end CostMatrix

end LinearAssignment
