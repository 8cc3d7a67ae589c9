import LinearAssignment.Proofs.Grid.Rescaled
import LinearAssignment.Proofs.Search.Beside
import LinearAssignment.Proofs.Search.Optimal
import Mathlib.Data.Fin.VecNotation

/-!
Rescaled costs. In exact arithmetic a search goes the same way if all costs are multiplied by a
positive number and each row is given an amount of its own. Only the amounts of its adjustments are
multiplied.
-/

namespace LinearAssignment

open Cost

namespace Tableau

/-- Two searches that make the same calls and return the same pairs. They report the same zeros and
lengths of chains; the amounts that the first reports are `k` times those of the second. -/
structure Parallel {α : Type} {n : ℕ} [Mul α] [Cost α] (k : α) (t s : Tableau α n)
    (o o' : Outcome α n) : Prop where
  left : t.LeadsTo o
  right : s.LeadsTo o'
  abreast : ∃ events events', Abreast t s events events' .markZero o.tableau o'.tableau
  pairs : o.pairs = o'.pairs
  events : List.Forall₂ (Event.Agree fun x z ↦ x = k * z) o.events.dropLast o'.events.dropLast

theorem exists_parallel {α : Type} {n : ℕ} [Cost α] [Exact α] [Mul α] {g w : Grid α n} {k : α}
    {u : Fin n → ℚ} (hk : 0 < Lawful.value k)
    (hmul : ∀ x z : α, Multiple (Lawful.value k) x z → x = k * z)
    (h : Grid.Rescaled (Lawful.value k) u g w) :
    ∃ o o', Parallel k (ofGrid g) (ofGrid w) o o' ∧
      Lawful.value o.total = Lawful.value k * Lawful.value o'.total + ∑ r, u r := by
  have hR := mirrors_multiple (α := α) hk
  have hreduce : (ofGrid g).reduce.Beside (Multiple (Lawful.value k)) (ofGrid w).reduce :=
    agree_ofGrid (h.reduce hk)
  have hstart := ready_start g.admitted_of_exact
  have hstart' := ready_start w.admitted_of_exact
  obtain ⟨i, j, events, events', o, o', π, ho, ho', hpaths, hpairs, hlog⟩ :=
    Beside.exists_outcomes hR hreduce hstart hstart' ⟨fun _ _ ↦ trivial, fun _ _ _ _ ↦ trivial⟩
  refine ⟨o, o', ⟨ho.leadsTo hstart, ho'.leadsTo hstart', ⟨events, events', hpaths⟩, hpairs,
    hlog.imp fun _ _ he ↦ he.imp hmul⟩, ?_⟩
  rw [ho.value_total, ho'.value_total]
  exact h.weight_eq π

/-- Over the integers and over the rationals a search goes the same way on rescaled costs. -/
theorem solve_rescaled (n : ℕ) :
    (∀ (g : Grid ℤ n) (k : ℤ) (u : Fin n → ℤ), 0 < k → ∃ o o',
      Parallel k (ofGrid (g.rescale k u)) (ofGrid g) o o' ∧ o.total = k * o'.total + ∑ r, u r) ∧
    ∀ (g : Grid ℚ n) (k : ℚ) (u : Fin n → ℚ), 0 < k → ∃ o o',
      Parallel k (ofGrid (g.rescale k u)) (ofGrid g) o o' ∧ o.total = k * o'.total + ∑ r, u r := by
  constructor
  · intro g k u hk
    have hrescaled : Grid.Rescaled (k : ℚ) (fun r ↦ (u r : ℚ)) (g.rescale k u) g := by
      intro r c
      rw [Grid.rescale, Grid.ofFn_value]
      change ((k * g r c + u r : ℤ) : ℚ) = k * (g r c : ℚ) + u r
      exact_mod_cast rfl
    have hmul : ∀ x z : ℤ, Multiple (k : ℚ) x z → x = k * z := by
      intro x z hx
      have hx : (x : ℚ) = k * z := hx
      exact_mod_cast hx
    obtain ⟨o, o', hparallel, htotal⟩ := exists_parallel (Int.cast_pos.mpr hk) hmul hrescaled
    have htotal : (o.total : ℚ) = k * o'.total + ∑ r, (u r : ℚ) := htotal
    exact ⟨o, o', hparallel, by exact_mod_cast htotal⟩
  · intro g k u hk
    exact exists_parallel hk (fun _ _ ↦ id) fun r c ↦ Grid.ofFn_value _ r c

/-- A grid with two cheapest matchings: two of its rows differ by the same amount everywhere. -/
def tied : Grid ℤ 3 := Grid.ofLists [[-1, 2, 2], [2, 5, 5], [0, 3, -7]] (by decide)

def halves : Grid ℚ 3 := Grid.ofLists [[0, 3 / 2, 0], [1, 0, 1], [1 / 2, 0, 3 / 2]] (by decide)

theorem solve_rescaled_ties :
    (∃ o o', Parallel 3 (ofGrid (tied.rescale 3 ![5, -2, 0])) (ofGrid tied) o o' ∧
      o.total = 3 * o'.total + ∑ r, ![5, -2, 0] r) ∧
    ∃ o o', Parallel (2 / 3) (ofGrid (halves.rescale (2 / 3) ![5, -2, 1 / 2])) (ofGrid halves)
      o o' ∧ o.total = 2 / 3 * o'.total + ∑ r, ![5, -2, 1 / 2] r :=
  ⟨(solve_rescaled 3).1 tied 3 _ (by decide), (solve_rescaled 3).2 halves (2 / 3) _ (by norm_num)⟩

end Tableau

end LinearAssignment
