import LinearAssignment.Proofs.Tableau.Phase
import LinearAssignment.Proofs.Tableau.Potential
import Mathlib.Tactic.Linarith

/-!
The ranking of permutations. In exact arithmetic every phase keeps the differences between the
weights of permutations, whatever the covers are and in whatever order the phases are called.
-/

namespace LinearAssignment

open Cost

namespace Phase

variable {α : Type} {n : ℕ} [Cost α] {t s : Tableau α n}

theorem costs_of_run {p : Phase n} (h : run t p = .ok s) : s.costs = t.costs := by
  cases p with
  | markZero =>
    cases h
    unfold Tableau.markZero
    split <;> rfl
  | adjust =>
    cases h
    exact Tableau.costs_adjust t
  | augment row col => exact (Tableau.of_augment h).1
  | _ =>
    cases h
    rfl

variable [Exact α]

theorem priced_of_run {p : Phase n} (h : run t p = .ok s) (ht : t.Priced) : s.Priced := by
  cases p with
  | reduce =>
    cases h
    exact ht.reduce
  | markZero =>
    cases h
    unfold Tableau.markZero
    split <;> exact ht
  | adjust =>
    cases h
    exact ht.adjust
  | augment row col =>
    obtain ⟨hcosts, hgrid⟩ := Tableau.of_augment h
    refine ht.of_offset (u := 0) (v := 0) hcosts ?_
    rw [hgrid]
    exact .refl t.grid
  | _ =>
    cases h
    exact ht

theorem priced_of_runs {phases : List (Phase n)} (h : runs t phases = .ok s) (ht : t.Priced) :
    s.costs = t.costs ∧ s.Priced := by
  induction phases generalizing t with
  | nil =>
    cases h
    exact ⟨rfl, ht⟩
  | cons p phases ih =>
    cases hp : run t p with
    | error f =>
      rw [runs_of_error hp] at h
      cases h
    | ok u =>
      rw [runs_of_ok hp] at h
      obtain ⟨hcosts, hpriced⟩ := ih h (priced_of_run hp ht)
      exact ⟨hcosts.trans (costs_of_run hp), hpriced⟩

end Phase

namespace Grid

variable {n : ℕ}

/-- Between integers the amounts of rows and columns may be taken to be integers. -/
theorem Offset.exists_int {g w : Grid ℤ n} {u v : Fin n → ℚ} (h : g.Offset w u v) :
    ∃ u' v' : Fin n → ℤ, ∀ r c, w r c = g r c - u' r - v' c := by
  cases n with
  | zero => exact ⟨0, 0, fun r ↦ r.elim0⟩
  | succ n =>
    refine ⟨fun r ↦ g r 0 - w r 0, fun c ↦ g 0 c - w 0 c - (g 0 0 - w 0 0), ?_⟩
    intro r c
    have hcell (r c : Fin (n + 1)) : (w r c : ℚ) = g r c - u r - v c := h r c
    have hcast : (w r c : ℚ) = g r c - (g r 0 - w r 0) - (g 0 c - w 0 c - (g 0 0 - w 0 0)) := by
      rw [hcell r c, hcell r 0, hcell 0 c, hcell 0 0]
      ring
    exact_mod_cast hcast

/-- The entries of a grid are those of another less amounts of rows and columns, and the weights of
permutations differ by as much in both. -/
structure Ranked {α : Type} [AddCommGroup α] (g w : Grid α n) : Prop where
  potentials : ∃ u v : Fin n → α, ∀ r c, w r c = g r c - u r - v c
  ranking (σ τ : Equiv.Perm (Fin n)) :
    ∑ r, w r (σ r) - ∑ r, w r (τ r) = ∑ r, g r (σ r) - ∑ r, g r (τ r)

theorem ranked_of_potentials {α : Type} [AddCommGroup α] {g w : Grid α n} {u v : Fin n → α}
    (h : ∀ r c, w r c = g r c - u r - v c) : g.Ranked w where
  potentials := ⟨u, v, h⟩
  ranking σ τ := by
    have hsum (π : Equiv.Perm (Fin n)) :
        ∑ r, w r (π r) = ∑ r, g r (π r) - ∑ r, u r - ∑ c, v c := by
      rw [← Equiv.sum_comp π v, ← Finset.sum_sub_distrib, ← Finset.sum_sub_distrib]
      exact Finset.sum_congr rfl fun r _ ↦ h r (π r)
    rw [hsum, hsum, sub_sub_sub_cancel_right, sub_sub_sub_cancel_right]

end Grid

namespace Tableau

variable {n : ℕ}

theorem exists_ranked {α : Type} [Cost α] [Exact α] [AddCommGroup α] {g : Grid α n}
    (hg : ∀ (w : Grid α n) (u v : Fin n → ℚ), g.Offset w u v →
      ∃ u' v' : Fin n → α, ∀ r c, w r c = g r c - u' r - v' c) (phases : List (Phase n)) :
    (∃ t, Phase.runs (ofGrid g) phases = .ok t ∧ t.costs = g ∧ g.Ranked t.grid) ∨
      (ofGrid g).BreaksOff phases := by
  refine ((confined_ofGrid g).runs phases).imp_left ?_
  intro ⟨t, ht⟩
  obtain ⟨hcosts, u, v, hoffset⟩ := Phase.priced_of_runs ht (priced_ofGrid g)
  rw [hcosts] at hoffset
  obtain ⟨u', v', hcell⟩ := hg t.grid u v hoffset
  exact ⟨t, ht, hcosts, Grid.ranked_of_potentials hcell⟩

/-- Over the integers and over the rationals, calls in any order and with any covers keep the
ranking of permutations, unless one of them follows a chain without an end. -/
theorem phases_keep_ranking :
    (∀ (g : Grid ℤ n) (phases : List (Phase n)),
      (∃ t, Phase.runs (ofGrid g) phases = .ok t ∧ t.costs = g ∧ g.Ranked t.grid) ∨
        (ofGrid g).BreaksOff phases) ∧
    ∀ (g : Grid ℚ n) (phases : List (Phase n)),
      (∃ t, Phase.runs (ofGrid g) phases = .ok t ∧ t.costs = g ∧ g.Ranked t.grid) ∨
        (ofGrid g).BreaksOff phases := by
  constructor
  · intro g
    exact exists_ranked fun w u v h ↦ h.exists_int
  · intro g
    exact exists_ranked fun w u v h ↦ ⟨u, v, h⟩

end Tableau

end LinearAssignment
