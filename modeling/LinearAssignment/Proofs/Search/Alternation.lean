import LinearAssignment.Proofs.Chain.Alternating
import LinearAssignment.Proofs.Search.Crossing

/-!
The chains of a search. Every augmentation follows an alternating chain of zeros, from an unmatched
row to an unmatched column, which goes on for no more rows than have been covered since the last
augmentation. Matched lines stay matched.
-/

namespace LinearAssignment

open Chain Cost

namespace Event

variable {α : Type}

def isRowCovered : Event α → Bool
  | rowCovered _ _ => true
  | _ => false

/-- How many rows are reported as covered after the last augmentation. -/
def coveredSince (events : List (Event α)) : ℕ :=
  (events.reverse.takeWhile fun e ↦ !e.isAugmented).countP isRowCovered

theorem coveredSince_concat (events : List (Event α)) (e : Event α) :
    coveredSince (events ++ [e]) =
      if e.isAugmented then 0 else coveredSince events + if e.isRowCovered then 1 else 0 := by
  simp only [coveredSince, List.reverse_append, List.reverse_singleton, List.singleton_append,
    List.takeWhile_cons, Bool.not_eq_true']
  cases he : e.isAugmented <;> simp [List.countP_cons]

end Event

/-- The covered rows, among them one that the call that is due is about to cover. -/
def Phase.coveredRows {α : Type} {n : ℕ} (t : Tableau α n) : Phase n → Finset (Fin n)
  | .cover k => k.coveredRows
  | _ => t.cover.coveredRows

namespace Tableau

variable {α : Type} {n : ℕ} [Cost α] {p q : Phase n} {t s : Tableau α n}
  {before events : List (Event α)} {r c : Fin n}

theorem coveredSince_adjustEvents (t : Tableau α n) (before : List (Event α)) :
    Event.coveredSince (before ++ t.adjustEvents) = Event.coveredSince before := by
  unfold adjustEvents
  cases t.adjustment? with
  | none => exact congrArg Event.coveredSince (List.append_nil before)
  | some m => exact Event.coveredSince_concat before (.adjusted m)

/-- The rows that are covered are those reported since the last augmentation. -/
theorem Step.coveredSince (h : Step p t events q s) (hp : Due p t) (hne : p ≠ .reduce)
    (hrows : (p.coveredRows t).card = Event.coveredSince before) :
    (q.coveredRows s).card = Event.coveredSince (before ++ events) := by
  cases h with
  | reduce => exact absurd rfl hne
  | @matched _ r c d hcols hz hd =>
    have hnew : r ∉ t.cover.coveredRows := by simpa using (Grid.of_zero? hz).1
    change (t.cover.exchange r d).coveredRows.card = _
    rw [Cover.coveredRows_exchange, Finset.card_insert_of_notMem hnew, Event.coveredSince_concat]
    exact congrArg (· + 1) hrows
  | adjust =>
    rw [coveredSince_adjustEvents, ← hrows]
    simp only [Phase.coveredRows, cover_adjust]
  | augment hs =>
    cases hp with
    | augment h hcols hz hr =>
      obtain ⟨e, rest, -, hs'⟩ := h.augment_eq hz hr
      cases hs.symm.trans hs'
      rw [Event.coveredSince_concat]
      exact congrArg Finset.card Cover.coveredRows_empty
  | _ =>
    rw [List.append_nil]
    exact hrows

theorem Path.coveredSince [Lawful α] (h : Path .reduce t events p s) (ht : t.start.Ready)
    (hcover : t.cover.coveredRows = ∅) (hp : p ≠ .reduce) :
    (p.coveredRows s).card = Event.coveredSince events := by
  refine (h.of_ne_reduce hp).invariant
    (I := fun events p s ↦ (p.coveredRows s).card = Event.coveredSince events) []
    (fun hs hp hne hrows ↦ hs.coveredSince hp hne hrows) (.extend ht) nofun ?_
  exact congrArg Finset.card hcover

/-- An augmentation from a zero through others: it succeeds, with an alternating chain of zeros, and
what was matched stays matched. -/
structure AugmentsThrough (t : Tableau α n) (p : Cell n) (qs : List (Cell n))
    (s : Tableau α n) : Prop where
  augment_eq : t.augment p.1 p.2 = .ok s
  chain : s.chain = through p qs
  length : s.chain.length = 2 * qs.length + 1
  length_le : qs.length ≤ t.cover.coveredRows.card
  alternating : Alternating t.matching t.marks p qs
  zero (q : Cell n) (h : q ∈ p :: qs) : (t.grid q.1 q.2 == 0) = true
  row_matched (i : Fin n) (h : (t.matching.colOf.get i).isSome = true) :
    (s.matching.colOf.get i).isSome = true
  col_matched (j : Fin n) (h : (t.matching.rowOf.get j).isSome = true) :
    (s.matching.rowOf.get j).isSome = true

theorem Ready.exists_augmentsThrough (h : t.Ready) (hz : t.zero? = some (r, c))
    (hr : t.matching.colOf.get r = none) :
    ∃ qs s, (t.mark (r, c)).AugmentsThrough (r, c) qs s := by
  obtain ⟨e, rest, ha, hle⟩ := h.exists_augmenting hz hr
  have hlen : rest.length ≤ 2 * n := by
    have := h.card_coveredRows_le
    have := t.matching.size_le
    omega
  have hmark : (t.mark (r, c)).marks.get r = some c.val := by rw [marks_mark, if_pos rfl]
  obtain ⟨qs, hthrough, halternating⟩ := ha.exists_alternating h.consistent hmark hlen
  have hlength := congrArg List.length hthrough
  rw [length_through, List.length_cons] at hlength
  refine ⟨qs, _, augment_of_route (t := t.mark (r, c)) ha.route, hthrough, hlength, ?_,
    halternating, ?_, ?_, ?_⟩
  · change qs.length ≤ t.cover.coveredRows.card
    omega
  · intro q hq
    have hq := halternating.marked q hq
    rw [marks_mark] at hq
    split_ifs at hq with hrow
    · obtain ⟨i, j⟩ := q
      obtain rfl : r = i := hrow
      obtain rfl : c = j := Fin.ext (Option.some.inj hq)
      exact (Grid.of_zero? hz).2.2
    · exact (h.zero_of_marked q.1 q.2 hq).1
  · intro i hi
    exact (ha.colOf_flip_isSome h.consistent i).mpr (.inr hi)
  · intro j hj
    exact (ha.rowOf_flip_isSome h.consistent j).mpr (.inr hj)

theorem Due.exists_augmentsThrough (h : Due (.augment r c) s) :
    ∃ qs u, s.AugmentsThrough (r, c) qs u := by
  cases h with
  | augment h hcols hz hr => exact h.exists_augmentsThrough hz hr

end Tableau

namespace CostMatrix

open Tableau

/-- Every augmentation of a search goes through zeros along an alternating chain. Between them it
meets no more rows than have been covered since the last augmentation. -/
theorem chains_alternate {costs : CostMatrix Float} {t : Tableau Float costs.length}
    (h : costs.tableau = .ok t) :
    (∃ o, costs.solve = .ok o ∧ t.LeadsTo o) ∧
      ∀ events r c s, Path .reduce t events (.augment r c) s →
        s.cover.coveredRows.card = Event.coveredSince events ∧
          ∃ qs u, s.AugmentsThrough (r, c) qs u := by
  have hstart := ready_start h
  refine ⟨exists_leadsTo h, fun events r c s hs ↦ ⟨?_, ?_⟩⟩
  · obtain ⟨hd, rfl⟩ := tableau_eq_ok.mp h
    exact hs.coveredSince hstart Cover.coveredRows_empty nofun
  · exact (hs.due (.reduce hstart)).exists_augmentsThrough

theorem chains_alternate_contested : ∃ s qs u, contested.tableau = .ok contestedTableau ∧
    Path .reduce contestedTableau [.rowCovered 0 2, .adjusted 1] (.augment 2 0) s ∧
      s.AugmentsThrough (2, 0) qs u ∧ u.chain = [.enter 2 0, .leave 0 0, .enter 0 2] ∧
        s.cover.coveredRows.card = 1 := by
  have hpath := path_contested_adjusted.tail (.free (r := 2) (c := 0) (by decide +kernel)
    (by decide +kernel) (by decide +kernel))
  obtain ⟨hrows, qs, u, hu⟩ := (chains_alternate tableau_contested).2 _ _ _ _ hpath
  have hchain : ((contestedCovered.adjust.mark (2, 0)).augment 2 0).toOption.map Tableau.chain =
      some [.enter 2 0, .leave 0 0, .enter 0 2] := by decide +kernel
  have hsome := congrArg (fun x ↦ x.toOption.map Tableau.chain) hu.augment_eq
  exact ⟨_, qs, u, tableau_contested, hpath, hu, Option.some.inj (hsome.symm.trans hchain), hrows⟩

end CostMatrix

end LinearAssignment
