import LinearAssignment.Proofs.Search.Growth
import LinearAssignment.Proofs.Search.Optimal
import LinearAssignment.Proofs.Tableau.Balance

/-!
The account of a search. In exact arithmetic the total cost of its pairs is what the reduction takes
from the rows and from the columns, and what every adjustment takes from the rows that are unmatched
at that call.
-/

namespace LinearAssignment

open Cost

namespace Tableau

variable {α : Type} {n : ℕ} [Cost α] {p q : Phase n} {t s : Tableau α n}
  {events : List (Event α)} {entries : List (α × ℕ)}

/-- A path with its adjustments that change the grid: the amount that each reports, and how many
pairs are matched at that call. All other adjustments change nothing and report nothing. -/
inductive Ledger (p : Phase n) (t : Tableau α n) :
    List (Event α) → List (α × ℕ) → Phase n → Tableau α n → Prop
  | refl : Ledger p t [] [] p t
  | other {q u : Phase n} {s v : Tableau α n} {events later : List (Event α)}
      {entries : List (α × ℕ)} (h : Ledger p t events entries q s) (hs : Step q s later u v)
      (hq : q ≠ .adjust) : Ledger p t (events ++ later) entries u v
  | idle {s : Tableau α n} {events : List (Event α)} {entries : List (α × ℕ)}
      (h : Ledger p t events entries .adjust s) (hs : s.adjust = s) (he : s.adjustEvents = []) :
      Ledger p t events entries .markZero s
  | shift {s : Tableau α n} {m : α} {events : List (Event α)} {entries : List (α × ℕ)}
      (h : Ledger p t events entries .adjust s) (hs : s.adjust.grid ≠ s.grid)
      (he : s.adjustEvents = [.adjusted m]) :
      Ledger p t (events ++ [.adjusted m]) (entries ++ [(m, s.matching.size)]) .markZero s.adjust

theorem Ledger.path (h : Ledger p t events entries q s) : Path p t events q s := by
  induction h with
  | refl => exact .refl
  | other _ hs _ ih => exact ih.tail hs
  | @idle s events _ _ hs he ih =>
    have hpath := ih.tail (.adjust s)
    rwa [he, hs, List.append_nil] at hpath
  | @shift s m _ _ _ _ he ih =>
    have hpath := ih.tail (.adjust s)
    rwa [he] at hpath

/-- The ledger of a path contains every amount that is reported. -/
theorem Ledger.amounts_eq (h : Ledger p t events entries q s) :
    Event.amounts events = entries.map Prod.fst := by
  induction h with
  | refl => rfl
  | other _ hs hq ih => rw [Event.amounts_append, hs.amounts_eq hq, List.append_nil, ih]
  | idle _ _ _ ih => exact ih
  | shift _ _ _ ih =>
    rw [Event.amounts_append, List.map_append, ih]
    rfl

variable [Exact α]

/-- What the adjustments of a ledger take from the rows that are unmatched at the time. -/
def taken (n : ℕ) (entries : List (α × ℕ)) : ℚ :=
  (entries.map fun e ↦ Lawful.value e.1 * (n - e.2)).sum

theorem Sound.grid_adjust_ne (h : t.Sound) {m : α} (hm : t.adjustment? = some m) :
    t.adjust.grid ≠ t.grid := by
  obtain ⟨-, hpos, r, c, hr, hc, -⟩ := h.amount_of_adjustment? hm
  intro hgrid
  have hcell := congrArg (fun g : Grid α n ↦ Lawful.value (g r c)) hgrid
  rw [adjust_of_some hm] at hcell
  dsimp only at hcell
  rw [Grid.shift_of_uncovered hr hc, Exact.value_sub] at hcell
  linarith

/-- What has been taken away so far is what a ledger says, and `A`. -/
def Recorded (t : Tableau α n) (A : ℚ) (events : List (Event α)) (p : Phase n)
    (s : Tableau α n) : Prop :=
  ∃ entries, Ledger .reduce t events entries p s ∧ s.Balanced (A + taken n entries)

theorem taken_concat (entries : List (α × ℕ)) (m : α) (k : ℕ) :
    taken n (entries ++ [(m, k)]) = taken n entries + Lawful.value m * (n - k) := by
  simp [taken]

/-- An adjustment either changes nothing or is entered with its amount. -/
theorem Recorded.adjust {u : Tableau α n} {A : ℚ} (h : u.Recorded A events .adjust t)
    (ht : t.Sound) : u.Recorded A (events ++ t.adjustEvents) .markZero t.adjust := by
  obtain ⟨entries, hledger, hbalanced⟩ := h
  cases hm : t.adjustment? with
  | none =>
    have hs := adjust_of_none hm
    have he : t.adjustEvents = [] := by simp [adjustEvents, hm]
    rw [he, hs, List.append_nil]
    exact ⟨entries, hledger.idle hs he, hbalanced⟩
  | some m =>
    have he : t.adjustEvents = [.adjusted m] := by simp [adjustEvents, hm]
    rw [he]
    refine ⟨_, hledger.shift (ht.grid_adjust_ne hm) he, ?_⟩
    rw [taken_concat, ← add_assoc]
    exact hbalanced.adjust ht hm

theorem Step.recorded {u : Tableau α n} {before : List (Event α)} {A : ℚ}
    (h : Step p t events q s) (hp : Due p t) (hne : p ≠ .reduce) (ht : u.Recorded A before p t) :
    u.Recorded A (before ++ events) q s := by
  by_cases hadjust : p = .adjust
  · subst hadjust
    cases h with
    | adjust => exact ht.adjust hp.ready_of_adjust.1.toSound
  · obtain ⟨entries, hledger, hbalanced⟩ := ht
    refine ⟨entries, hledger.other h hadjust, ?_⟩
    rw [Balanced, h.costs_eq, h.grid_eq hne hadjust]
    exact hbalanced

theorem exists_minima (g : Grid α n) : ∃ u v : Fin n → α,
    (∀ r, g.rowMinima.get r = some (u r)) ∧ ∀ c, g.reduceRows.colMinima.get c = some (v c) := by
  have hrow (r : Fin n) : ∃ m, g.rowMinima.get r = some m := by
    obtain ⟨c, hlo, -⟩ := Grid.exists_least?_line (fun c ↦ Grid.isNumber_of_exact (g r c)) r
    exact ⟨g r c, (Table.get_ofFn _ r).trans hlo⟩
  have hcol (c : Fin n) : ∃ m, g.reduceRows.colMinima.get c = some m := by
    obtain ⟨r, hlo, -⟩ :=
      Grid.exists_least?_line (fun r ↦ Grid.isNumber_of_exact (g.reduceRows r c)) c
    exact ⟨g.reduceRows r c, (Table.get_ofFn _ c).trans hlo⟩
  choose u hu using hrow
  choose v hv using hcol
  exact ⟨u, v, hu, hv⟩

theorem balanced_reduce {g : Grid α n} {u v : Fin n → α}
    (hu : ∀ r, g.rowMinima.get r = some (u r))
    (hv : ∀ c, g.reduceRows.colMinima.get c = some (v c)) :
    (ofGrid g).reduce.Balanced (∑ r, Lawful.value (u r) + ∑ c, Lawful.value (v c)) := by
  have hrow (r : Fin n) : least? (g.row r) = some (u r) := (Table.get_ofFn _ r).symm.trans (hu r)
  have hcol (c : Fin n) : least? (g.reduceRows.col c) = some (v c) :=
    (Table.get_ofFn _ c).symm.trans (hv c)
  have hreduce := (balanced_ofGrid g).of_offset (s := (ofGrid g).reduce) rfl
    (g.offset_reduceRows.trans g.reduceRows.offset_reduceCols)
  simpa [hrow, hcol] using hreduce

/-- The account of a search: what the reduction takes from each row and then from each column, and
the ledger of all its calls. -/
structure Account {α : Type} [Cost α] (g : Grid α n) (o : Outcome α n) (u v : Fin n → α)
    (entries : List (α × ℕ)) : Prop where
  leadsTo : (ofGrid g).LeadsTo o
  rows (r : Fin n) : g.rowMinima.get r = some (u r)
  cols (c : Fin n) : g.reduceRows.colMinima.get c = some (v c)
  ledger : ∃ events, Ledger .reduce (ofGrid g) events entries .markZero o.tableau
  amounts : Event.amounts o.events = entries.map Prod.fst

theorem exists_account (g : Grid α n) : ∃ o u v entries, Account g o u v entries ∧
    CostMatrix.total g.toLists o.pairs = .ok o.total ∧ Lawful.value o.total =
      ∑ r, Lawful.value (u r) + ∑ c, Lawful.value (v c) + taken n entries := by
  have hstart := ready_start g.admitted_of_exact
  obtain ⟨k, events, o, π, ho⟩ := hstart.exists_outcome
  obtain ⟨u, v, hu, hv⟩ := exists_minima g
  have hfirst : (ofGrid g).Recorded (∑ r, Lawful.value (u r) + ∑ c, Lawful.value (v c)) []
      .extend (ofGrid g).reduce :=
    ⟨[], Ledger.refl.other (.reduce _) nofun, by simpa [taken] using balanced_reduce hu hv⟩
  obtain ⟨entries, hledger, hbalanced⟩ := ((ho.path hstart).of_ne_reduce nofun).invariant
    (I := (ofGrid g).Recorded _) [] (fun hs hp hne ht ↦ hs.recorded hp hne ht)
    (.extend hstart) nofun hfirst
  have hamounts : Event.amounts o.events = entries.map Prod.fst :=
    ho.amounts_eq.trans hledger.amounts_eq
  have hweight : o.tableau.grid.weight π = 0 := Finset.sum_eq_zero fun r _ ↦ ho.value_grid r
  have hcosts : o.tableau.costs = (ofGrid g).costs := ho.run.costs_eq hstart
  refine ⟨o, u, v, entries, ⟨ho.leadsTo hstart, hu, hv, ⟨_, hledger⟩, hamounts⟩, ?_, ?_⟩
  · rw [ho.total]
    exact ho.perfect.total_eq g
  · rw [ho.value_total, ← hcosts, hbalanced.weight_eq, hweight, zero_add]

/-- Over the integers and over the rationals the total cost of the pairs is what the reduction takes
from the lines, and for each adjustment its amount times the number of rows that are unmatched at
that call. -/
theorem total_accounted (n : ℕ) :
    (∀ g : Grid ℤ n, ∃ o u v entries, Account g o u v entries ∧
      CostMatrix.total g.toLists o.pairs = .ok o.total ∧
        o.total = ∑ r, u r + ∑ c, v c + (entries.map fun e ↦ e.1 * ((n : ℤ) - e.2)).sum) ∧
    ∀ g : Grid ℚ n, ∃ o u v entries, Account g o u v entries ∧
      CostMatrix.total g.toLists o.pairs = .ok o.total ∧
        o.total = ∑ r, u r + ∑ c, v c + (entries.map fun e ↦ e.1 * ((n : ℚ) - e.2)).sum := by
  constructor
  · intro g
    obtain ⟨o, u, v, entries, haccount, htotal, hvalue⟩ := exists_account g
    have htaken : taken n entries =
        (((entries.map fun e ↦ e.1 * ((n : ℤ) - e.2)).sum : ℤ) : ℚ) := by
      rw [Int.cast_list_sum, List.map_map, taken]
      refine congrArg List.sum (List.map_congr_left fun e _ ↦ ?_)
      simp [Lawful.value]
    rw [htaken] at hvalue
    have hcast : (o.total : ℚ) = ∑ r, (u r : ℚ) + ∑ c, (v c : ℚ) + _ := hvalue
    exact ⟨o, u, v, entries, haccount, htotal, by exact_mod_cast hcast⟩
  · intro g
    exact exists_account g

end Tableau

end LinearAssignment
