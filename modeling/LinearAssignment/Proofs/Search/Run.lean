import LinearAssignment.Proofs.Tableau.Start
import LinearAssignment.Proofs.Tableau.Turn
import Mathlib.Tactic.Linarith

/-!
Runs of the search: the tableaus before its turns, however many turns are granted.

Every turn makes progress, which is bounded by the size of the grid. So a run from a tableau that is
ready can be continued to its end, and the search comes to the same end.
-/

namespace LinearAssignment

namespace Event

variable {α : Type}

def isAugmented : Event α → Bool
  | augmented _ => true
  | _ => false

end Event

namespace Tableau

open Chain Cost

variable {α : Type} {n : ℕ} [Cost α]

/-- `k` turns, the events on the way, and the tableau after them. -/
inductive Run : ℕ → Tableau α n → List (Event α) → Tableau α n → Prop
  | zero (t : Tableau α n) : Run 0 t [] t
  | cons {k : ℕ} {t s u : Tableau α n} {events later : List (Event α)}
      (hcols : t.cover.allCols = false) (hs : t.turn = .ok (s, events)) (hu : Run k s later u) :
      Run (k + 1) t (events ++ later) u

/-- The turn that adds a pair to the matching and takes the covers from the rows. -/
structure Augments (t s : Tableau α n) (events : List (Event α)) : Prop where
  size : s.matching.size = t.matching.size + 1
  rows (r : Fin n) : s.cover.rows.get r = false
  event : ∃ links, events = t.settleEvents ++ [.augmented links]

/-- The turn that covers one more row, a matched one. -/
structure Exchanges (t s : Tableau α n) (events : List (Event α)) (r c : Fin n) : Prop where
  matching : s.matching = t.matching
  matched : (t.matching.colOf.get r).isSome = true
  uncovered : t.cover.rows.get r = false
  rows (i : Fin n) : s.cover.rows.get i = true ↔ i = r ∨ t.cover.rows.get i = true
  event : ∃ amounts : List α,
    events = t.settleEvents ++ .rowCovered r c :: amounts.map .adjusted

/-- How far a search has come. -/
def progress (t : Tableau α n) : ℕ :=
  t.matching.size * (t.matching.size + 1) + 2 * t.cover.coveredRows.card

theorem countP_settleEvents (t : Tableau α n) : t.settleEvents.countP Event.isAugmented = 0 := by
  unfold settleEvents adjustEvents
  cases t.zero? <;> cases t.adjustment? <;> rfl

section Turn

variable {t s : Tableau α n} {events : List (Event α)}

theorem Placed.costs_eq (h : Placed t s events) : s.costs = t.costs := by
  cases h with
  | augment => rfl
  | exchange => exact costs_adjust _

theorem Placed.augments_or_exchanges (h : t.settle.Ready) (hs : Placed t.settle s events) :
    Augments t s (t.settleEvents ++ events) ∨
      ∃ r c, Exchanges t s (t.settleEvents ++ events) r c := by
  cases hs with
  | @augment r c e rest hz ha hlen =>
    refine .inl ⟨?_, fun i ↦ Table.get_replicate false i, _, rfl⟩
    rw [← matching_settle t]
    exact ha.size_flip h.consistent
  | @exchange r c d hz hd =>
    refine .inr ⟨r, c, ?_, ?_, ?_, fun i ↦ ?_, _, rfl⟩
    · rw [matching_adjust, ← matching_settle t]
      rfl
    · rw [← matching_settle t, hd]
      rfl
    · rw [← cover_settle t]
      exact (Grid.of_zero? hz).1
    · rw [cover_adjust, rows_mark_exchange, cover_settle]
      split_ifs with hi
      · simp [hi]
      · simp [Ne.symm hi]

theorem Augments.coveredRows_eq (h : Augments t s events) : s.cover.coveredRows = ∅ := by
  ext r
  simp [h.rows r]

theorem Exchanges.coveredRows_eq {r c : Fin n} (h : Exchanges t s events r c) :
    s.cover.coveredRows = insert r t.cover.coveredRows := by
  ext i
  simp [h.rows i]

theorem Augments.progress_lt (h : Augments t s events) (ht : t.Sound) :
    t.progress + 2 ≤ s.progress := by
  have hle := ht.card_coveredRows_le
  rw [progress, progress, h.coveredRows_eq, h.size, Finset.card_empty]
  linarith

theorem Exchanges.progress_eq {r c : Fin n} (h : Exchanges t s events r c) :
    s.progress = t.progress + 2 := by
  rw [progress, progress, h.coveredRows_eq, h.matching,
    Finset.card_insert_of_notMem (by simp [h.uncovered])]
  omega

theorem Augments.countP_eq (h : Augments t s events) : events.countP Event.isAugmented = 1 := by
  obtain ⟨links, rfl⟩ := h.event
  rw [List.countP_append, countP_settleEvents]
  rfl

theorem Exchanges.countP_eq {r c : Fin n} (h : Exchanges t s events r c) :
    events.countP Event.isAugmented = 0 := by
  obtain ⟨amounts, rfl⟩ := h.event
  rw [List.countP_append, countP_settleEvents, zero_add, List.countP_eq_zero]
  intro e he
  rcases List.mem_cons.mp he with rfl | he
  · simp [Event.isAugmented]
  · obtain ⟨a, -, rfl⟩ := List.mem_map.mp he
    simp [Event.isAugmented]

end Turn

namespace Ready

variable [Lawful α] {t s : Tableau α n} {events : List (Event α)} (h : t.Ready)
include h

theorem of_turn (hcols : t.cover.allCols = false) (hs : t.turn = .ok (s, events)) :
    s.Ready ∧ s.costs = t.costs ∧ (Augments t s events ∨ ∃ r c, Exchanges t s events r c) := by
  obtain ⟨later, rfl, hplaced⟩ := h.placed_of_turn hcols hs
  exact ⟨h.settle.placed hplaced, hplaced.costs_eq.trans (costs_settle t),
    hplaced.augments_or_exchanges h.settle⟩

omit [Lawful α] in
theorem progress_le : t.progress ≤ n * (n + 1) := by
  have hle := h.card_coveredRows_le
  have hcard := h.card_cover
  rcases t.matching.size_le.eq_or_lt with hn | hn
  · -- A perfect matching covers all columns, and so no row.
    have hcols : t.cover.coveredCols = Finset.univ := by
      ext c
      simp [Cover.allCols_eq_true.mp (h.allCols_iff.mpr hn) c]
    rw [hcols, Finset.card_univ, Fintype.card_fin] at hcard
    rw [progress, hn, show t.cover.coveredRows.card = 0 by omega]
    omega
  · rw [progress]
    nlinarith

end Ready

namespace Run

variable [Lawful α] {k : ℕ} {t s : Tableau α n} {events : List (Event α)}

/-- What turns keep holds of every tableau of a run. -/
theorem invariant {I : Tableau α n → Prop}
    (step : ∀ {t s : Tableau α n} {events : List (Event α)}, t.Ready → I t →
      t.cover.allCols = false → t.turn = .ok (s, events) → I s)
    (h : Run k t events s) (ht : t.Ready) (hI : I t) : s.Ready ∧ I s := by
  induction h with
  | zero => exact ⟨ht, hI⟩
  | cons hcols hs _ ih => exact ih (ht.of_turn hcols hs).1 (step ht hI hcols hs)

theorem ready (h : Run k t events s) (ht : t.Ready) : s.Ready :=
  (h.invariant (I := fun _ ↦ True) (fun _ _ _ _ ↦ trivial) ht trivial).1

theorem costs_eq (h : Run k t events s) (ht : t.Ready) : s.costs = t.costs :=
  (h.invariant (I := fun s ↦ s.costs = t.costs)
    (fun hr he hcols hs ↦ (hr.of_turn hcols hs).2.1.trans he) ht rfl).2

theorem progress_le (h : Run k t events s) (ht : t.Ready) :
    t.progress + 2 * k ≤ s.progress := by
  induction h with
  | zero => exact le_rfl
  | @cons k t s u _ _ hcols hs _ ih =>
    obtain ⟨hs, -, hstep⟩ := ht.of_turn hcols hs
    have hrest := ih hs
    rcases hstep with ha | ⟨r, c, he⟩
    · have := ha.progress_lt ht.toSound
      omega
    · have := he.progress_eq
      omega

theorem countP_eq (h : Run k t events s) (ht : t.Ready) :
    t.matching.size + events.countP Event.isAugmented = s.matching.size := by
  induction h with
  | zero => rfl
  | @cons k t s u _ _ hcols hs _ ih =>
    obtain ⟨hs, -, hstep⟩ := ht.of_turn hcols hs
    rw [List.countP_append, ← ih hs]
    rcases hstep with ha | ⟨r, c, he⟩
    · rw [ha.countP_eq, ha.size]
      omega
    · rw [he.countP_eq, he.matching]
      omega

omit [Lawful α] in
theorem turns_eq {limit : ℕ} (h : Run k t events s) (hcols : s.cover.allCols = true)
    (hk : k ≤ limit) : turns limit t = .ok (s, events) := by
  induction h generalizing limit with
  | zero t =>
    unfold turns
    rw [if_pos hcols]
  | cons ht hs _ ih =>
    cases limit with
    | zero => omega
    | succ limit =>
      unfold turns
      rw [if_neg (by simp [ht])]
      simp only [hs, ih hcols (Nat.le_of_succ_le_succ hk)]
      rfl

end Run

/-- From a tableau that is ready the search comes to its end. -/
theorem Ready.exists_run [Lawful α] {t : Tableau α n} (h : t.Ready) :
    ∃ k events s, Run k t events s ∧ s.cover.allCols = true := by
  induction hp : n * (n + 1) - t.progress using Nat.strong_induction_on generalizing t with
  | _ p ih =>
    cases hcols : t.cover.allCols with
    | true => exact ⟨0, [], t, .zero t, hcols⟩
    | false =>
      obtain ⟨s, events, hs, -⟩ := h.exists_turn hcols
      obtain ⟨hready, -, -⟩ := h.of_turn hcols hs
      have hone := (Run.cons hcols hs (.zero s)).progress_le h
      have hle := hready.progress_le
      obtain ⟨k, later, u, hu, hend⟩ := ih _ (by omega) hready rfl
      exact ⟨k + 1, _, u, .cons hcols hs hu, hend⟩

end Tableau

end LinearAssignment
