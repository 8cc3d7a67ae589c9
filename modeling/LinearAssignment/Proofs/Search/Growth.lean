import LinearAssignment.Proofs.Grid.Spread
import LinearAssignment.Proofs.Search.Crossing

/-!
How far the entries grow. In exact arithmetic every adjustment is paid for by a cell where unmatched
lines cross. Such a cell loses every amount in turn and never becomes negative, so all amounts
together do not exceed what it held after the reduction.
-/

namespace LinearAssignment

open Cost

namespace Event

variable {α : Type}

def amount? : Event α → Option α
  | adjusted m => some m
  | _ => none

/-- The amounts of the adjustments that are reported. -/
def amounts (events : List (Event α)) : List α := events.filterMap amount?

theorem amounts_append (events later : List (Event α)) :
    amounts (events ++ later) = amounts events ++ amounts later := List.filterMap_append

end Event

namespace Tableau

variable {α : Type} {n : ℕ} [Cost α] {p q : Phase n} {t s : Tableau α n} {w : Grid α n}
  {events : List (Event α)} {A : ℚ}

theorem amounts_adjustEvents (t : Tableau α n) :
    Event.amounts t.adjustEvents = t.adjustment?.toList := by
  unfold adjustEvents
  cases t.adjustment? <;> rfl

theorem Step.amounts_eq (h : Step p t events q s) (hp : p ≠ .adjust) :
    Event.amounts events = [] := by
  cases h with
  | adjust => exact absurd rfl hp
  | _ => rfl

theorem Reaches.amounts_eq {t : Tableau α n} {k : ℕ} {o : Outcome α n} {π : Equiv.Perm (Fin n)}
    (h : Reaches t k events o π) : Event.amounts o.events = Event.amounts events := by
  rw [h.events, Event.amounts_append]
  exact List.append_nil _

variable [Exact α]

/-- The sum of the amounts that are reported. -/
def paid (events : List (Event α)) : ℚ := ((Event.amounts events).map Lawful.value).sum

theorem paid_append (events later : List (Event α)) :
    paid (events ++ later) = paid events + paid later := by
  rw [paid, Event.amounts_append, List.map_append, List.sum_append]
  rfl

/-- What has been paid since the grid was `w` bounds what any entry has gained. Where unmatched
lines cross all of it has been lost, and one cell of `w` could pay for all of it. -/
structure Charged (w : Grid α n) (A : ℚ) (t : Tableau α n) : Prop where
  gain (r c : Fin n) : Lawful.value (t.grid r c) ≤ Lawful.value (w r c) + A
  loss (r c : Fin n) (hr : t.matching.colOf.get r = none) (hc : t.matching.rowOf.get c = none) :
    Lawful.value (t.grid r c) + A ≤ Lawful.value (w r c)
  payer : ∃ r c, A ≤ Lawful.value (w r c)

theorem Ready.charged_shift (h : t.Ready) (hcols : t.cover.allCols = false) {m : α}
    (hm : t.adjustment? = some m) (hw : t.Charged w A) :
    t.adjust.Charged w (A + Lawful.value m) := by
  obtain ⟨hamount, hpos, -⟩ := h.amount_of_adjustment? hm
  have hloss : ∀ r c, t.matching.colOf.get r = none → t.matching.rowOf.get c = none →
      Lawful.value (t.adjust.grid r c) + (A + Lawful.value m) ≤ Lawful.value (w r c) := by
    intro r c hr hc
    rw [adjust_of_some hm]
    dsimp only
    rw [Grid.shift_of_uncovered (h.row_uncovered r hr) (h.col_uncovered c hc), Exact.value_sub]
    linarith [hw.loss r c hr hc]
  refine ⟨?_, ?_, ?_⟩
  · intro r c
    have hgain := hw.gain r c
    rw [adjust_of_some hm]
    dsimp only
    cases hr : t.cover.rows.get r <;> cases hc : t.cover.cols.get c
    · rw [Grid.shift_of_uncovered hr hc, Exact.value_sub]
      linarith
    · rw [Grid.shift_of_crossing (by rw [hr, hc]; rfl)]
      linarith
    · rw [Grid.shift_of_crossing (by rw [hr, hc]; rfl)]
      linarith
    · rw [Grid.shift_of_covered hr hc, Exact.value_add]
      linarith
  · intro r c hr hc
    rw [matching_adjust] at hr hc
    exact hloss r c hr hc
  · -- The search is not over, so there are unmatched lines, and they cross.
    obtain ⟨c, hc⟩ : ∃ c, t.cover.cols.get c = false := by
      obtain ⟨r, c, -, hc, -⟩ := h.exists_finite hcols
      exact ⟨c, hc⟩
    obtain ⟨r, hr⟩ := h.consistent.exists_free_row (h.size_lt hc)
    obtain ⟨rest, e, hroute, -⟩ := h.route c hc
    refine ⟨r, e, ?_⟩
    linarith [hloss r e hr hroute.end_free, h.adjust.value_nonneg r e]

theorem Step.charged (h : Step p t events q s) (hp : Due p t) (hne : p ≠ .reduce)
    (hw : t.Charged w A) : s.Charged w (A + paid events) := by
  by_cases hadjust : p = .adjust
  · subst hadjust
    obtain ⟨hready, hcols⟩ := hp.ready_of_adjust
    cases h with
    | adjust =>
      rw [paid, amounts_adjustEvents]
      cases hm : t.adjustment? with
      | none =>
        rw [adjust_of_none hm]
        simpa using hw
      | some m => simpa using hready.charged_shift hcols hm hw
  · have hgrid := h.grid_eq hne hadjust
    obtain ⟨hrows, hcols⟩ := h.free_of_free hp
    rw [paid, h.amounts_eq hadjust, List.map_nil, List.sum_nil, add_zero]
    refine ⟨?_, ?_, hw.payer⟩
    · rw [hgrid]
      exact hw.gain
    · rw [hgrid]
      exact fun r c hr hc ↦ hw.loss r c (hrows r hr) (hcols c hc)

theorem Path.charged (h : Path p t events q s) (hp : Due p t) (hne : p ≠ .reduce)
    (hw : t.Charged w A) : s.Charged w (A + paid events) := by
  refine h.invariant (I := fun events _ s ↦ s.Charged w (A + paid events)) []
    (fun hs hp hne hw ↦ ?_) hp hne (by simpa [paid, Event.amounts] using hw)
  rw [paid_append, ← add_assoc]
  exact hs.charged hp hne hw

theorem charged_of_path {g : Grid α n} (hn : 0 < n) (h : Path .reduce (ofGrid g) events p s)
    (hp : p ≠ .reduce) : s.Charged g.reduce (paid events) := by
  have hstart := ready_start g.admitted_of_exact
  have hfirst : (ofGrid g).reduce.Charged g.reduce 0 := by
    refine ⟨fun r c ↦ (add_zero _).ge, fun r c _ _ ↦ (add_zero _).le, ⟨0, hn⟩, ⟨0, hn⟩, ?_⟩
    exact (nonneg_iff.mp (g.admitted_of_exact.reduce _ _).1).2
  have hcharged := (h.of_ne_reduce hp).charged (.extend hstart) nofun hfirst
  rwa [zero_add] at hcharged

/-- If no two entries of a row differ by more than `S`, then all that is paid is at most `S`, and the
entries of the working grid lie between zero and `2 * S`. -/
theorem value_mem_of_path {g : Grid α n} {S : ℚ}
    (hS : ∀ r c d, Lawful.value (g r c) - Lawful.value (g r d) ≤ S) (hn : 0 < n)
    (h : Path .reduce (ofGrid g) events p s) (hp : p ≠ .reduce) :
    paid events ≤ S ∧ ∀ r c, 0 ≤ Lawful.value (s.grid r c) ∧
      Lawful.value (s.grid r c) ≤ 2 * S := by
  have hcharged := charged_of_path hn h hp
  have hdue := h.due (.reduce (ready_start g.admitted_of_exact))
  obtain ⟨i, j, hpayer⟩ := hcharged.payer
  have hpaid := hpayer.trans (Grid.value_reduce_le hS i j)
  refine ⟨hpaid, fun r c ↦ ⟨(nonneg_iff.mp (hdue.nonneg hp r c)).2, ?_⟩⟩
  linarith [hcharged.gain r c, Grid.value_reduce_le hS r c]

/-- A search that ends, with entries between zero and `2 * S` at every call after the reduction, and
with adjustments by at most `S` in all. The matrix is admitted only if `2 * n * S` is finite. -/
structure HeldWithin {α : Type} [CommRing α] [LE α] [Cost α] (t : Tableau α n) (S : α)
    (o : Outcome α n) : Prop where
  solve : t.solve = .ok o
  path : ∃ events, Path .reduce t events .markZero o.tableau
  entry (events : List (Event α)) (p : Phase n) (s : Tableau α n) (h : Path .reduce t events p s)
    (hp : p ≠ .reduce) (r c : Fin n) : 0 ≤ s.grid r c ∧ s.grid r c ≤ 2 * S
  limit : 2 * S ≤ 2 * n * S
  amounts : (Event.amounts o.events).sum ≤ S

theorem exists_held (g : Grid α (n + 1)) : ∃ S o, g.spread? = some S ∧ (ofGrid g).solve = .ok o ∧
    (∃ events, Path .reduce (ofGrid g) events .markZero o.tableau) ∧
    (∀ events p s, Path .reduce (ofGrid g) events p s → p ≠ .reduce → ∀ r c,
      0 ≤ Lawful.value (s.grid r c) ∧ Lawful.value (s.grid r c) ≤ 2 * Lawful.value S) ∧
    0 ≤ Lawful.value S ∧ ((Event.amounts o.events).map Lawful.value).sum ≤ Lawful.value S := by
  obtain ⟨S, hspread, -, hS⟩ := g.exists_spread? 0
  have hstart := ready_start g.admitted_of_exact
  obtain ⟨k, events, o, π, ho⟩ := hstart.exists_outcome
  have hpath := ho.path hstart
  refine ⟨S, o, hspread, ho.solve, ⟨events, hpath⟩, ?_, ?_, ?_⟩
  · intro events p s h hp
    exact (value_mem_of_path hS n.succ_pos h hp).2
  · simpa using hS 0 0 0
  · rw [ho.amounts_eq]
    exact (value_mem_of_path hS n.succ_pos hpath nofun).1

/-- Over the integers and over the rationals the spread of the costs bounds all growth. -/
theorem growth_bounded (n : ℕ) :
    (∀ g : Grid ℤ (n + 1), ∃ S o, g.spread? = some S ∧ (ofGrid g).HeldWithin S o) ∧
      ∀ g : Grid ℚ (n + 1), ∃ S o, g.spread? = some S ∧ (ofGrid g).HeldWithin S o := by
  constructor
  · intro g
    obtain ⟨S, o, hspread, hsolve, hpath, hentry, hS, hamounts⟩ := exists_held g
    have hS : 0 ≤ S := Int.cast_nonneg_iff.mp hS
    have hcast : ((Event.amounts o.events).map Lawful.value).sum =
        (((Event.amounts o.events).sum : ℤ) : ℚ) := (Int.cast_list_sum _).symm
    refine ⟨S, o, hspread, hsolve, hpath, ?_, by push_cast; nlinarith, ?_⟩
    · intro events p s h hp r c
      obtain ⟨hlow, hhigh⟩ := hentry events p s h hp r c
      have hhigh : (s.grid r c : ℚ) ≤ 2 * S := hhigh
      exact ⟨Int.cast_nonneg_iff.mp hlow, by exact_mod_cast hhigh⟩
    · rw [hcast] at hamounts
      exact Int.cast_le.mp hamounts
  · intro g
    obtain ⟨S, o, hspread, hsolve, hpath, hentry, hS, hamounts⟩ := exists_held g
    have hS : 0 ≤ S := hS
    refine ⟨S, o, hspread, hsolve, hpath, hentry, by push_cast; nlinarith, ?_⟩
    simpa [Lawful.value] using hamounts

end Tableau

end LinearAssignment
