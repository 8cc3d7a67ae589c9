import LinearAssignment.Proofs.Tableau.Adjust

/-!
What a turn does. The zero that it finds is in an unmatched row, and the matching grows along a
chain, or it is in a matched row, and a cover of the row takes the place of the cover of its column.
Either way the tableau is ready again.
-/

namespace LinearAssignment.Tableau

open Chain Cost

variable {α : Type} {n : ℕ}

/-- The tableau after the flip of a chain. -/
def along (t : Tableau α n) (chain : Chain) : Tableau α n :=
  { t with matching := t.matching.flip chain, cover := .empty, marks := noMarks, chain := chain }

theorem marks_mark (t : Tableau α n) (p : Cell n) (r : Fin n) :
    (t.mark p).marks.get r = if p.1 = r then some p.2.val else t.marks.get r := by
  simp [mark, Table.get_setIfInBounds, Fin.val_inj]

theorem rows_mark_exchange (t : Tableau α n) (r c d i : Fin n) :
    ((t.mark (r, c)).exchange r d).cover.rows.get i =
      if r = i then true else t.cover.rows.get i := Cover.rows_exchange t.cover r d i

theorem cols_mark_exchange (t : Tableau α n) (r c d j : Fin n) :
    ((t.mark (r, c)).exchange r d).cover.cols.get j =
      if d = j then false else t.cover.cols.get j := Cover.cols_exchange t.cover r d j

theorem marks_mark_exchange (t : Tableau α n) (r c d i : Fin n) :
    ((t.mark (r, c)).exchange r d).marks.get i =
      if r = i then some c.val else t.marks.get i := marks_mark t (r, c) i

variable [Cost α] {t s : Tableau α n} {r c d e : Fin n} {rest : Chain}

/-- What is done with the first uncovered zero of a tableau. -/
inductive Placed (t : Tableau α n) : Tableau α n → List (Event α) → Prop
  | augment {r c e : Fin n} {rest : Chain} (hz : t.zero? = some (r, c))
      (h : Augmenting t.matching (t.mark (r, c)).marks r c e rest) (hlen : rest.length ≤ 2 * n) :
      Placed t ((t.mark (r, c)).along (.enter r c :: rest)).coverMatched
        [.augmented (rest.length + 1)]
  | exchange {r c d : Fin n} (hz : t.zero? = some (r, c))
      (hd : t.matching.colOf.get r = some d.val) :
      Placed t ((t.mark (r, c)).exchange r d).adjust
        (.rowCovered r c :: ((t.mark (r, c)).exchange r d).adjustEvents)

theorem place_augment (h : Augmenting t.matching (t.mark (r, c)).marks r c e rest)
    (hlen : rest.length ≤ 2 * n) : (t.mark (r, c)).place (r, c) =
      .ok (((t.mark (r, c)).along (.enter r c :: rest)).coverMatched,
        [.augmented (rest.length + 1)]) := by
  have haugment : (t.mark (r, c)).augment r c =
      .ok ((t.mark (r, c)).along (.enter r c :: rest)) := by
    unfold Tableau.augment
    rw [show startingAt (t.mark (r, c)).matching (t.mark (r, c)).marks r c =
      .ok (.enter r c :: rest) from h.startingAt_eq hlen]
    simp only [r.isLt, if_pos]
    rfl
  simp only [place, show (t.mark (r, c)).matching.colOf.get r = none from h.free, haugment]
  rfl

theorem place_exchange (hd : t.matching.colOf.get r = some d.val) :
    (t.mark (r, c)).place (r, c) = .ok (((t.mark (r, c)).exchange r d).adjust,
      .rowCovered r c :: ((t.mark (r, c)).exchange r d).adjustEvents) := by
  simp only [place, show (t.mark (r, c)).matching.colOf.get r = some d.val from hd, d.isLt, dif_pos]

theorem Placed.exists_zero {events : List (Event α)} (h : Placed t s events) :
    ∃ p, t.zero? = some p ∧ (t.mark p).place p = .ok (s, events) := by
  cases h with
  | augment hz h hlen => exact ⟨_, hz, place_augment h hlen⟩
  | exchange hz hd => exact ⟨_, hz, place_exchange hd⟩

theorem turn_of_placed {events : List (Event α)} (h : Placed t.settle s events) :
    t.turn = .ok (s, t.settleEvents ++ events) := by
  obtain ⟨p, hz, hplace⟩ := h.exists_zero
  rw [turn, hz]
  simp only [hplace]
  rfl

theorem Sound.exchange (h : t.Sound) (hz : t.zero? = some (r, c))
    (hd : t.matching.colOf.get r = some d.val) : ((t.mark (r, c)).exchange r d).Sound where
  consistent := h.consistent
  mark_lt i j hj := by
    rw [marks_mark_exchange] at hj
    split_ifs at hj
    · exact Option.some.inj hj ▸ c.isLt
    · exact h.mark_lt i j hj
  nonneg := h.nonneg
  zero_of_matched := h.zero_of_matched
  crossing i j hj := by
    change t.matching.colOf.get i = some j.val at hj
    rw [rows_mark_exchange, cols_mark_exchange]
    by_cases hi : r = i
    · subst hi
      have hdj : d = j := Fin.ext (Option.some.inj (hd.symm.trans hj))
      simp [hdj]
    · have hdj : d ≠ j := by
        rintro rfl
        exact hi (h.consistent.row_unique hd hj)
      simpa [hi, hdj] using h.crossing i j hj
  row_uncovered i hi := by
    change t.matching.colOf.get i = none at hi
    have hne : r ≠ i := by
      rintro rfl
      simp [hd] at hi
    rw [rows_mark_exchange, if_neg hne]
    exact h.row_uncovered i hi
  col_uncovered j hj := by
    rw [cols_mark_exchange]
    split_ifs
    · rfl
    · exact h.col_uncovered j hj
  marked_iff i := by
    rw [marks_mark_exchange, rows_mark_exchange]
    split_ifs
    · simp
    · exact h.marked_iff i
  zero_of_marked i j hj := by
    obtain ⟨-, hcol, hzero⟩ := Grid.of_zero? hz
    rw [marks_mark_exchange] at hj
    rw [cols_mark_exchange]
    split_ifs at hj with hi
    · obtain rfl := Fin.ext (Option.some.inj hj)
      subst hi
      exact ⟨hzero, by simpa using fun _ ↦ hcol⟩
    · obtain ⟨hz, hc⟩ := h.zero_of_marked i j hj
      exact ⟨hz, by simp [hc]⟩

namespace Ready

variable (h : t.Ready)
include h

theorem route_mark (hz : t.zero? = some (r, c)) {b : Fin n} (hb : t.cover.cols.get b = false) :
    ∃ rest e, Route t.matching (t.mark (r, c)).marks b rest (some e) ∧
      rest.length ≤ 2 * t.cover.coveredRows.card := by
  obtain ⟨rest, e, hroute, hlen⟩ := h.route b hb
  refine ⟨rest, e, hroute.mono fun i j hi ↦ ?_, hlen⟩
  rw [marks_mark, if_neg, hi]
  rintro rfl
  simp [h.mark_eq_none (Grid.of_zero? hz).1] at hi

theorem exists_augmenting (hz : t.zero? = some (r, c)) (hr : t.matching.colOf.get r = none) :
    ∃ e rest, Augmenting t.matching (t.mark (r, c)).marks r c e rest ∧
      rest.length ≤ 2 * t.cover.coveredRows.card := by
  obtain ⟨rest, e, hroute, hlen⟩ := h.route_mark hz (Grid.of_zero? hz).2.1
  exact ⟨e, rest, ⟨hr, hroute⟩, hlen⟩

theorem exchange (hz : t.zero? = some (r, c)) (hd : t.matching.colOf.get r = some d.val) :
    ((t.mark (r, c)).exchange r d).Ready where
  toSound := h.toSound.exchange hz hd
  route j hj := by
    obtain ⟨hrow, hcol, -⟩ := Grid.of_zero? hz
    have hcard : ((t.mark (r, c)).exchange r d).cover.coveredRows.card =
        t.cover.coveredRows.card + 1 := by
      rw [← Finset.card_insert_of_notMem (a := r) (by simpa using hrow),
        ← Cover.coveredRows_exchange t.cover r d]
      rfl
    rw [cols_mark_exchange] at hj
    rw [hcard]
    split_ifs at hj with hdj
    · -- The route of the column that is laid open begins with the matched row and its new mark.
      subst hdj
      obtain ⟨rest, e, hroute, hlen⟩ := h.route_mark hz hcol
      have hmark : ((t.mark (r, c)).exchange r d).marks.get r = some c.val := by
        rw [marks_mark_exchange, if_pos rfl]
      refine ⟨_, e, .step ((h.consistent.agree r d).mp hd) hmark hroute, ?_⟩
      simp only [List.length_cons]
      omega
    · obtain ⟨rest, e, hroute, hlen⟩ := h.route_mark hz hj
      exact ⟨rest, e, hroute, by omega⟩
  finite := h.finite

theorem augment (hz : t.zero? = some (r, c))
    (ha : Augmenting t.matching (t.mark (r, c)).marks r c e rest) :
    ((t.mark (r, c)).along (.enter r c :: rest)).coverMatched.Ready := by
  have hm := h.consistent
  refine Ready.coverMatched (hm.flip (ha.fits hm)) h.nonneg (fun i j hj ↦ ?_)
    (fun i j hi hj ↦ ?_) (fun i ↦ ?_) fun i ↦ ?_
  · rcases ha.of_colOf_flip hm hj with ⟨rfl, rfl⟩ | hj | hj
    · exact (Grid.of_zero? hz).2.2
    · rw [marks_mark] at hj
      split_ifs at hj with hi
      · dsimp only at hi hj
        rw [← hi, ← Fin.ext (Option.some.inj hj)]
        exact (Grid.of_zero? hz).2.2
      · exact (h.zero_of_marked i j hj).1
    · exact h.zero_of_matched i j hj
  · refine h.finite i j ?_ ?_
    · rw [← Option.not_isSome_iff_eq_none]
      intro hsome
      have := (ha.colOf_flip_isSome hm i).mpr (.inr hsome)
      simp [show (t.matching.flip (.enter r c :: rest)).colOf.get i = none from hi] at this
    · rw [← Option.not_isSome_iff_eq_none]
      intro hsome
      have := (ha.rowOf_flip_isSome hm j).mpr (.inr hsome)
      simp [show (t.matching.flip (.enter r c :: rest)).rowOf.get j = none from hj] at this
  · exact Table.get_replicate _ _
  · exact Table.get_replicate _ _

theorem placed [Lawful α] {events : List (Event α)} (hs : Placed t s events) : s.Ready := by
  cases hs with
  | augment hz ha => exact h.augment hz ha
  | exchange hz hd => exact (h.exchange hz hd).adjust

theorem exists_placed (hz : t.zero? = some (r, c)) : ∃ s events, Placed t s events := by
  cases hr : t.matching.colOf.get r with
  | none =>
    obtain ⟨e, rest, ha, hlen⟩ := h.exists_augmenting hz hr
    have := h.card_coveredRows_le
    have := t.matching.size_le
    exact ⟨_, _, .augment hz ha (by omega)⟩
  | some d => exact ⟨_, _, .exchange (d := ⟨d, h.consistent.col_lt r d hr⟩) hz hr⟩

/-- Where the search is not over, a turn succeeds. -/
theorem exists_turn [Lawful α] (hcols : t.cover.allCols = false) :
    ∃ s events, t.turn = .ok (s, t.settleEvents ++ events) ∧ Placed t.settle s events := by
  obtain ⟨⟨r, c⟩, hz⟩ := h.zero?_settle hcols
  obtain ⟨s, events, hs⟩ := h.settle.exists_placed hz
  exact ⟨s, events, turn_of_placed hs, hs⟩

theorem placed_of_turn [Lawful α] {events : List (Event α)} (hcols : t.cover.allCols = false)
    (hs : t.turn = .ok (s, events)) :
    ∃ later, events = t.settleEvents ++ later ∧ Placed t.settle s later := by
  obtain ⟨s', later, hturn, hplaced⟩ := h.exists_turn hcols
  rw [hs] at hturn
  cases hturn
  exact ⟨later, rfl, hplaced⟩

end Ready

end LinearAssignment.Tableau
