import LinearAssignment.Proofs.Chain.Augmenting
import LinearAssignment.Proofs.Tableau.Phase

/-!
Augmentation of any tableau whose tables agree, with any marks.

If the walk from a column visits no column twice, the chain from an unmatched row along the walk is
flipped. The lines on the walk are matched anew and no other line is. One more pair is there if the
walk ends in an unmatched column. If it ends in a row without a mark, that row loses its pair.
-/

namespace LinearAssignment

namespace Chain.Route

variable {n : ℕ} {m : Matching n} {marks : Vector (Option ℕ) n} {r c d e i j : Fin n} {rest : Chain}
  {o : Option (Fin n)}

theorem exists_end (h : Route m marks c rest o) : ∃ e, Visits m marks c e ∧
    (m.rowOf.get e = none ∨ ∃ i : Fin n, m.rowOf.get e = some i.val ∧ marks.get i = none) := by
  induction h with
  | free hc => exact ⟨_, .refl, .inl hc⟩
  | stuck hc hr => exact ⟨_, .refl, .inr ⟨_, hc, hr⟩⟩
  | step hc hr _ ih =>
    obtain ⟨e, hvisits, he⟩ := ih
    exact ⟨e, .head ⟨_, hc, hr⟩ hvisits, he⟩

section Walk

variable (h : Route m marks c rest o) (hd : Visits m marks c d)
include h hd

theorem end_eq_some (hfree : m.rowOf.get d = none) : o = some d := by
  obtain ⟨later, hlater, -⟩ := h.of_visits hd
  exact (hlater.unique (.free hfree)).2

theorem end_eq_none (hi : m.rowOf.get d = some i.val) (hmark : marks.get i = none) : o = none := by
  obtain ⟨later, hlater, -⟩ := h.of_visits hd
  exact (hlater.unique (.stuck hi hmark)).2

theorem leave_mem_of_visits (hi : m.rowOf.get d = some i.val) : Link.leave i d ∈ rest := by
  obtain ⟨later, hlater, hsuffix⟩ := h.of_visits hd
  exact hsuffix.mem (hlater.leave_mem hi)

/-- A walk gets stuck in one row at most. -/
theorem stuck_unique (hi : m.rowOf.get d = some i.val) (hmark : marks.get i = none)
    (he : Visits m marks c e) (hj : m.rowOf.get e = some j.val) (hmark' : marks.get j = none) :
    i = j := by
  obtain ⟨later, hlater, hsuffix⟩ := h.of_visits hd
  obtain ⟨later', hlater', hsuffix'⟩ := h.of_visits he
  obtain rfl := (hlater.unique (.stuck hi hmark)).1
  obtain rfl := (hlater'.unique (.stuck hj hmark')).1
  have heq := (List.suffix_of_suffix_length_le hsuffix hsuffix' le_rfl).eq_of_length rfl
  exact Fin.ext (Link.leave.inj (List.head_eq_of_cons_eq heq)).1

end Walk

section Flip

variable (h : Route m marks c rest o) (hm : m.Consistent) (hr : m.colOf.get r = none)
include h hm hr

theorem colOf_flip_of_mark (hd : Visits m marks c d) (hi : m.rowOf.get d = some i.val)
    (hmark : marks.get i = some e.val) :
    (m.flip (.enter r c :: rest)).colOf.get i = some e.val := by
  obtain ⟨later, hlater, hsuffix⟩ := h.of_visits hd
  exact (Matching.colOf_flip (h.fits hm hr) i e).mpr
    (.inl (List.mem_cons_of_mem _ (hsuffix.mem (hlater.enter_mem hi hmark))))

theorem colOf_flip_of_off (hne : i ≠ r)
    (hoff : ∀ d, Visits m marks c d → m.rowOf.get d ≠ some i.val) :
    (m.flip (.enter r c :: rest)).colOf.get i = m.colOf.get i := by
  have hleave (k : ℕ) : Link.leave i k ∉ rest := by
    intro hl
    obtain ⟨i', d, hi, -, hd, hrow⟩ := h.visits_of_leave hl
    exact hoff d hd (hi ▸ hrow)
  refine Option.ext fun j ↦ (Matching.colOf_flip (h.fits hm hr) i j).trans ?_
  constructor
  · rintro (he | ⟨hj, -⟩)
    · rcases h.enter_cases he with ⟨hi, -⟩ | ⟨-, i', -, b, hi, -, -, -, hl⟩
      · exact absurd (Fin.ext hi) hne
      · exact absurd (hi ▸ hl) (hleave b)
    · exact hj
  · exact fun hj ↦ .inr ⟨hj, by simpa using hleave j⟩

theorem rowOf_flip_of_off (hoff : ¬Visits m marks c d) :
    (m.flip (.enter r c :: rest)).rowOf.get d = m.rowOf.get d := by
  have hleave (k : ℕ) : Link.leave k d ∉ rest := by
    intro hl
    obtain ⟨-, d', -, hd', hvisits, -⟩ := h.visits_of_leave hl
    exact hoff (Fin.ext hd' ▸ hvisits)
  refine Option.ext fun k ↦ (Matching.rowOf_flip (h.fits hm hr) d k).trans ?_
  constructor
  · rintro (he | ⟨hk, -⟩)
    · rcases h.enter_cases he with ⟨-, hd⟩ | ⟨-, i, j, b, -, hd, hmark, hrow, hl⟩
      · exact absurd (Fin.ext hd ▸ Relation.ReflTransGen.refl) hoff
      · obtain ⟨-, b', -, hb, hvisits, -⟩ := h.visits_of_leave hl
        obtain rfl := Fin.ext hb
        exact absurd (Fin.ext hd ▸ hvisits.tail ⟨i, hrow, hmark⟩) hoff
    · exact hk
  · exact fun hk ↦ .inr ⟨hk, by simpa using hleave k⟩

end Flip

theorem size_flip_of_stuck (h : Route m marks c rest none) (hm : m.Consistent)
    (hr : m.colOf.get r = none) : (m.flip (.enter r c :: rest)).size = m.size := by
  have hcols : (m.flip (.enter r c :: rest)).matchedCols = m.matchedCols := by
    ext d
    simp [h.rowOf_flip_isSome hm hr]
  rw [← Matching.card_matchedCols, hcols, Matching.card_matchedCols]

/-- Of the rows that were matched only the one in which the walk gets stuck is not. -/
theorem colOf_flip_eq_none_iff (h : Route m marks c rest none) (hm : m.Consistent)
    (hr : m.colOf.get r = none) (hd : Visits m marks c d) (hi : m.rowOf.get d = some i.val)
    (hmark : marks.get i = none) (hj : (m.colOf.get j).isSome = true) :
    (m.flip (.enter r c :: rest)).colOf.get j = none ↔ j = i := by
  have hne : j ≠ r := by
    rintro rfl
    simp [hr] at hj
  rw [← Option.not_isSome_iff_eq_none, h.colOf_flip_isSome hm hr, or_iff_right hne,
    and_iff_right hj, not_forall]
  constructor
  · rintro ⟨k, hk⟩
    obtain ⟨hl, hnone⟩ := Classical.not_imp.mp hk
    obtain ⟨j', e, hjj', -, he, hrow⟩ := h.visits_of_leave hl
    obtain rfl := Fin.ext hjj'
    exact h.stuck_unique he hrow (Option.not_isSome_iff_eq_none.mp hnone) hd hi hmark
  · rintro rfl
    exact ⟨d, by simp [h.leave_mem_of_visits hd hi, hmark]⟩

end Chain.Route

namespace Tableau

open Chain

variable {α : Type} {n : ℕ} {t : Tableau α n} {r c : Fin n}

/-- What an augmentation from the row `r` along the walk from the column `c` makes of a tableau. -/
structure Flipped (t s : Tableau α n) (r c : Fin n) : Prop where
  consistent : s.matching.Consistent
  first : s.matching.colOf.get r = some c.val
  /-- A row that the walk passes takes the column of its mark. -/
  passed (d i e : Fin n) (hd : Visits t.matching t.marks c d)
    (hi : t.matching.rowOf.get d = some i.val) (he : t.marks.get i = some e.val) :
    s.matching.colOf.get i = some e.val
  col_matched (d : Fin n) (h : (t.matching.rowOf.get d).isSome = true) :
    (s.matching.rowOf.get d).isSome = true
  row_off (i : Fin n) (hne : i ≠ r)
    (h : ∀ d, Visits t.matching t.marks c d → t.matching.rowOf.get d ≠ some i.val) :
    s.matching.colOf.get i = t.matching.colOf.get i
  col_off (d : Fin n) (h : ¬Visits t.matching t.marks c d) :
    s.matching.rowOf.get d = t.matching.rowOf.get d
  marks : s.marks = noMarks
  cover : s.cover = .empty
  grid : s.grid = t.grid
  costs : s.costs = t.costs

/-- From an unmatched row and a column whose walk visits no column twice an augmentation succeeds.
The walk comes to an end: in an unmatched column, and one more pair is there and every matched row
still matched; or in a row without a mark, and there are as many pairs as before and this row is the
one that is matched no more. -/
theorem augment_along_walk (hm : t.matching.Consistent)
    (hmarks : ∀ (i : Fin n) (d : ℕ), t.marks.get i = some d → d < n)
    (hr : t.matching.colOf.get r = none) (hwalk : Unrepeated t.matching t.marks c) :
    ∃ s, t.augment r c = .ok s ∧ t.Flipped s r c ∧
      (∃ e, Visits t.matching t.marks c e ∧ (t.matching.rowOf.get e = none ∨
        ∃ i : Fin n, t.matching.rowOf.get e = some i.val ∧ t.marks.get i = none)) ∧
      (∀ e, Visits t.matching t.marks c e → t.matching.rowOf.get e = none →
        s.matching.size = t.matching.size + 1 ∧
          ∀ j, (t.matching.colOf.get j).isSome = true → (s.matching.colOf.get j).isSome = true) ∧
      ∀ e i : Fin n, Visits t.matching t.marks c e → t.matching.rowOf.get e = some i.val →
        t.marks.get i = none → s.matching.size = t.matching.size ∧
          ∀ j, (t.matching.colOf.get j).isSome = true →
            (s.matching.colOf.get j = none ↔ j = i) := by
  obtain ⟨rest, o, hroute⟩ := hwalk.exists_route hm.row_lt hmarks
  have hfits := hroute.fits hm hr
  refine ⟨_, augment_of_route hroute, ?_, hroute.exists_end, ?_, ?_⟩
  · exact {
      consistent := hm.flip hfits
      first := (Matching.colOf_flip hfits r c).mpr (.inl List.mem_cons_self)
      passed := fun d i e ↦ hroute.colOf_flip_of_mark hm hr
      col_matched := fun d hd ↦ (hroute.rowOf_flip_isSome hm hr d).mpr (.inr hd)
      row_off := fun i ↦ hroute.colOf_flip_of_off hm hr
      col_off := fun d ↦ hroute.rowOf_flip_of_off hm hr
      marks := rfl
      cover := rfl
      grid := rfl
      costs := rfl }
  · intro e he hfree
    obtain rfl := hroute.end_eq_some he hfree
    have haugmenting : Augmenting t.matching t.marks r c e rest := ⟨hr, hroute⟩
    exact ⟨haugmenting.size_flip hm,
      fun j hj ↦ (haugmenting.colOf_flip_isSome hm j).mpr (.inr hj)⟩
  · intro e i he hi hmark
    obtain rfl := hroute.end_eq_none he hi hmark
    exact ⟨hroute.size_flip_of_stuck hm hr,
      fun j hj ↦ hroute.colOf_flip_eq_none_iff hm hr he hi hmark hj⟩

/-- Three matched rows, and a fourth from which a walk begins in the column of the first. -/
def relay (marks : Vector (Option ℕ) 4) : Tableau ℤ 4 :=
  { costs := .ofFn fun _ _ ↦ 0
    grid := .ofFn fun _ _ ↦ 0
    matching := ((Matching.empty.link 0 0).link 1 1).link 2 2
    cover := .empty
    marks := marks
    chain := [] }

theorem consistent_relay (marks : Vector (Option ℕ) 4) : (relay marks).matching.Consistent := by
  have hfirst := Matching.consistent_empty.link (r := (0 : Fin 4)) (c := (0 : Fin 4))
    (by decide) (by decide)
  have hsecond := hfirst.link (r := (1 : Fin 4)) (c := (1 : Fin 4)) (by decide) (by decide)
  exact hsecond.link (r := (2 : Fin 4)) (c := (2 : Fin 4)) (by decide) (by decide)

theorem augment_along_walk_relay :
    (∃ s, (relay #v[some 1, some 3, none, none]).augment 3 0 = .ok s ∧
      s.matching.Consistent ∧ s.matching.size = 4) ∧
    ∃ s, (relay #v[some 1, some 2, none, none]).augment 3 0 = .ok s ∧
      s.matching.Consistent ∧ s.matching.colOf.get 3 = some 0 ∧ s.matching.size = 3 ∧
        s.matching.colOf.get 2 = none := by
  constructor
  · set t := relay #v[some 1, some 3, none, none] with ht
    have hfirst : Leads t.matching t.marks 0 1 := ⟨0, by decide, by decide⟩
    have hsecond : Leads t.matching t.marks 1 3 := ⟨1, by decide, by decide⟩
    have hroute : Route t.matching t.marks 0
        [.leave 0 0, .enter 0 1, .leave 1 1, .enter 1 3] (some 3) :=
      .step (c := 0) (r := 0) (d := 1) (by decide) (by decide)
        (.step (c := 1) (r := 1) (d := 3) (by decide) (by decide) (.free (by decide)))
    obtain ⟨s, hs, hflipped, -, hfree, -⟩ := augment_along_walk (r := 3) (c := 0)
      (consistent_relay _) (by decide) (by decide) hroute.unrepeated
    have hsize := (hfree 3 (.head hfirst (.single hsecond)) (by decide)).1
    exact ⟨s, hs, hflipped.consistent, hsize.trans (by decide)⟩
  · set t := relay #v[some 1, some 2, none, none] with ht
    have hfirst : Leads t.matching t.marks 0 1 := ⟨0, by decide, by decide⟩
    have hsecond : Leads t.matching t.marks 1 2 := ⟨1, by decide, by decide⟩
    have hroute : Route t.matching t.marks 0
        [.leave 0 0, .enter 0 1, .leave 1 1, .enter 1 2, .leave 2 2] none :=
      .step (c := 0) (r := 0) (d := 1) (by decide) (by decide)
        (.step (c := 1) (r := 1) (d := 2) (by decide) (by decide)
          (.stuck (c := 2) (r := 2) (by decide) (by decide)))
    obtain ⟨s, hs, hflipped, -, -, hstuck⟩ := augment_along_walk (r := 3) (c := 0)
      (consistent_relay _) (by decide) (by decide) hroute.unrepeated
    obtain ⟨hsize, hrows⟩ := hstuck 2 2 (.head hfirst (.single hsecond)) (by decide) (by decide)
    exact ⟨s, hs, hflipped.consistent, hflipped.first, hsize.trans (by decide),
      (hrows 2 (by decide)).mpr rfl⟩

end Tableau

end LinearAssignment
