import LinearAssignment.Proofs.Search.Path
import LinearAssignment.Proofs.Tableau.Agree

/-!
Two searches side by side. Where the numbers of the first mirror those of the second, and those of
the second stay within bounds, the same calls are due in both, and they find and do the same.
-/

namespace LinearAssignment

open Cost

/-- The last tableaus agree, and so does all that is reported before the total. -/
structure Outcome.Agree {α β : Type} {n : ℕ} (R : α → β → Prop) (o : Outcome α n)
    (o' : Outcome β n) : Prop where
  tableau : o.tableau.Agree R o'.tableau
  events : List.Forall₂ (Event.Agree R) o.events.dropLast o'.events.dropLast

namespace Tableau

variable {α β : Type} {n : ℕ} [Cost α] [Cost β] {R : α → β → Prop} {B : β → Prop}
  {p q : Phase n} {t t' : Tableau α n} {s s' : Tableau β n} {events : List (Event α)}
  {events' : List (Event β)}

/-- The same calls made from the beginning in two searches, and what is reported of them. -/
inductive Abreast (t : Tableau α n) (s : Tableau β n) : List (Event α) → List (Event β) →
    Phase n → Tableau α n → Tableau β n → Prop
  | refl : Abreast t s [] [] .reduce t s
  | tail {p q : Phase n} {u v : Tableau α n} {u' v' : Tableau β n}
      {events later : List (Event α)} {events' later' : List (Event β)}
      (h : Abreast t s events events' p u u') (ht : Step p u later q v)
      (hs : Step p u' later' q v') : Abreast t s (events ++ later) (events' ++ later') q v v'

/-- Two searches that make the same calls, with related entries, the same zeros, related least
entries, the same pairs and chains, and related amounts in what they report. -/
structure Lockstep (R : α → β → Prop) (t : Tableau α n) (s : Tableau β n) : Prop where
  rows : t.grid.reduceRows.Agree R s.grid.reduceRows
  left {events : List (Event α)} {p : Phase n} {u : Tableau α n} (h : Path .reduce t events p u) :
    ∃ events' u', Abreast t s events events' p u u'
  right {events' : List (Event β)} {p : Phase n} {u' : Tableau β n}
    (h : Path .reduce s events' p u') : ∃ events u, Abreast t s events events' p u u'
  agree {events : List (Event α)} {events' : List (Event β)} {p : Phase n} {u : Tableau α n}
    {u' : Tableau β n} (h : Abreast t s events events' p u u') :
    u.Agree R u' ∧ u.zero? = u'.zero? ∧ Option.Rel R u.leastUncovered? u'.leastUncovered? ∧
      List.Forall₂ (Event.Agree R) events events'

/-- What the calls of a search come to stays within bounds. -/
structure Bounded (B : β → Prop) (s : Tableau β n) : Prop where
  rows (r c : Fin n) : B (s.grid.reduceRows r c)
  entry {events : List (Event β)} {p : Phase n} {u : Tableau β n} (h : Path .reduce s events p u)
    (hp : p ≠ .reduce) (r c : Fin n) : B (u.grid r c)

namespace Abreast

theorem left (h : Abreast t s events events' p t' s') : Path .reduce t events p t' := by
  induction h with
  | refl => exact .refl
  | tail _ ht _ ih => exact ih.tail ht

theorem right (h : Abreast t s events events' p t' s') : Path .reduce s events' p s' := by
  induction h with
  | refl => exact .refl
  | tail _ _ hs ih => exact ih.tail hs

theorem start (t : Tableau α n) (s : Tableau β n) :
    Abreast t s [] [] .markZero t.start s.start :=
  ((Abreast.refl.tail (.reduce t) (.reduce s)).tail (.extend _) (.extend _)).tail
    (.coverMatched _) (.coverMatched _)

end Abreast

namespace Agree

theorem step (hR : Mirrors R B) (h : t.Agree R s) (hs : Step p s events' q s')
    (hrows : p = .reduce → ∀ r c, B (s.grid.reduceRows r c)) (hB : ∀ r c, B (s'.grid r c)) :
    ∃ events t', Step p t events q t' ∧ t'.Agree R s' ∧
      List.Forall₂ (Event.Agree R) events events' := by
  cases hs with
  | reduce => exact ⟨_, _, .reduce t, h.reduce hR (hrows rfl) hB, .nil⟩
  | extend => exact ⟨_, _, .extend t, h.extend hR, .nil⟩
  | coverMatched => exact ⟨_, _, .coverMatched t, h.coverMatched, .nil⟩
  | missed hcols hz =>
    rw [← h.cover] at hcols
    rw [← h.zero?_eq hR] at hz
    exact ⟨_, _, .missed hcols hz, h, .nil⟩
  | free hcols hz hr =>
    rw [← h.cover] at hcols
    rw [← h.zero?_eq hR] at hz
    rw [← h.matching] at hr
    exact ⟨_, _, .free hcols hz hr, h.mark _, .nil⟩
  | @matched _ r c d hcols hz hd =>
    rw [← h.cover] at hcols
    rw [← h.zero?_eq hR] at hz
    rw [← h.matching] at hd
    have hstep := Step.matched hcols hz hd
    rw [h.cover] at hstep
    exact ⟨_, _, hstep, h.mark _, .cons (.rowCovered r c) .nil⟩
  | adjust => exact ⟨_, _, .adjust t, h.adjust hR hB, h.adjustEvents hR⟩
  | augment hs =>
    obtain ⟨t', ht, hagree⟩ := h.augment hs
    refine ⟨_, t', .augment ht, hagree, .cons ?_ .nil⟩
    rw [hagree.chain]
    exact .augmented _
  | cover k => exact ⟨_, _, .cover k t, ⟨h.costs, h.grid, h.matching, rfl, h.marks, h.chain⟩, .nil⟩

section Search

variable (hR : Mirrors R B) (h : t.Agree R s) (hs : s.Bounded B)
include hR h hs

omit h in
/-- While the searches are abreast, the next call of the second is made in the first. -/
theorem next (hagree : t'.Agree R s') (hpath : Path .reduce s events' p s') {q : Phase n}
    {u' : Tableau β n} {later' : List (Event β)} (hstep : Step p s' later' q u') :
    ∃ later u, Step p t' later q u ∧ u.Agree R u' ∧ List.Forall₂ (Event.Agree R) later later' := by
  refine hagree.step hR hstep ?_ (hs.entry (hpath.tail hstep) hstep.ne_reduce)
  rintro rfl
  obtain ⟨-, -, rfl⟩ := hpath.eq_of_reduce
  exact hs.rows

theorem abreast (hpaths : Abreast t s events events' p t' s') :
    t'.Agree R s' ∧ List.Forall₂ (Event.Agree R) events events' := by
  induction hpaths with
  | refl => exact ⟨h, .nil⟩
  | tail hpaths ht hstep ih =>
    obtain ⟨hagree, hevents⟩ := ih
    obtain ⟨later, u, hu, hagree', hlater⟩ := hagree.next hR hs hpaths.right hstep
    obtain ⟨rfl, -, rfl⟩ := ht.unique hu
    exact ⟨hagree', List.rel_append hevents hlater⟩

theorem exists_right [Lawful β] (hstart : s.start.Ready) (hpath : Path .reduce t events p t') :
    ∃ events' s', Abreast t s events events' p t' s' := by
  induction hpath with
  | refl => exact ⟨[], s, .refl⟩
  | tail _ hstep ih =>
    obtain ⟨events', s', hpaths⟩ := ih
    obtain ⟨hagree, -⟩ := abreast hR h hs hpaths
    have hdue := hpaths.right.due (.reduce hstart)
    -- The covers agree, so the second search is not over if the first goes on.
    rcases hdue.exists_step with ⟨rfl, hcols⟩ | ⟨later', q, u', hstep'⟩
    · rw [← hagree.cover] at hcols
      exact absurd hcols hstep.allCols
    · obtain ⟨later, u, hu, -⟩ := hagree.next hR hs hpaths.right hstep'
      obtain ⟨rfl, rfl, rfl⟩ := hstep.unique hu
      exact ⟨_, u', hpaths.tail hstep hstep'⟩

theorem exists_left (hpath : Path .reduce s events' p s') :
    ∃ events t', Abreast t s events events' p t' s' := by
  induction hpath with
  | refl => exact ⟨[], t, .refl⟩
  | tail hpath hstep ih =>
    obtain ⟨events, t', hpaths⟩ := ih
    obtain ⟨hagree, -⟩ := abreast hR h hs hpaths
    obtain ⟨later, u, hu, -⟩ := hagree.next hR hs hpath hstep
    exact ⟨_, u, hpaths.tail hu hstep⟩

theorem lockstep [Lawful β] (hstart : s.start.Ready) : t.Lockstep R s where
  rows := h.grid.reduceRows hR hs.rows
  left := exists_right hR h hs hstart
  right := exists_left hR h hs
  agree hpaths := by
    obtain ⟨hagree, hevents⟩ := abreast hR h hs hpaths
    exact ⟨hagree, hagree.zero?_eq hR, hagree.leastUncovered? hR, hevents⟩

end Search

end Agree

/-- No call follows when all columns are covered, and every search has but one such end. -/
theorem Reaches.eq_of_abreast [Lawful α] {k : ℕ} {later : List (Event α)} {o : Outcome α n}
    {π : Equiv.Perm (Fin n)} (ho : Reaches t k later o π) (ht : t.start.Ready)
    (h : Abreast t s events events' .markZero t' s') (hcover : t'.cover = s'.cover)
    (hcols : s'.cover.allCols = true) : later = events ∧ o.tableau = t' := by
  rw [← hcover] at hcols
  obtain ⟨hevents, -, hlast⟩ := (ho.path ht).eq_of_end h.left
    (fun _ _ _ hstep ↦ hstep.allCols ho.allCols) fun _ _ _ hstep ↦ hstep.allCols hcols
  exact ⟨hevents, hlast⟩

theorem Reaches.agree_events {k k' : ℕ} {o : Outcome α n} {o' : Outcome β n}
    {π π' : Equiv.Perm (Fin n)} (ho : Reaches t k events o π) (ho' : Reaches s k' events' o' π')
    (hmatching : t.start.matching = s.start.matching)
    (hevents : List.Forall₂ (Event.Agree R) events events') :
    List.Forall₂ (Event.Agree R) o.events.dropLast o'.events.dropLast := by
  rw [ho.events, ho'.events, List.dropLast_concat, List.dropLast_concat, hmatching]
  exact .cons (.started n) (.cons (.seeded _ n) hevents)

/-- Searches in lockstep end at the same call, with outcomes that agree. -/
theorem Lockstep.outcome [Lawful α] [Lawful β] (h : t.Lockstep R s) (ht : t.start.Ready)
    (hs : s.start.Ready) {k k' : ℕ} {o : Outcome α n} {o' : Outcome β n}
    {π π' : Equiv.Perm (Fin n)} (ho : Reaches t k events o π) (ho' : Reaches s k' events' o' π') :
    Abreast t s events events' .markZero o.tableau o'.tableau ∧ o.Agree R o' := by
  obtain ⟨later, u, hpaths⟩ := h.right (ho'.path hs)
  obtain ⟨hagree, -, -, hevents⟩ := h.agree hpaths
  obtain ⟨rfl, rfl⟩ := ho.eq_of_abreast ht hpaths hagree.cover ho'.allCols
  obtain ⟨hstart, -⟩ := h.agree (.start t s)
  exact ⟨hpaths, hagree, ho.agree_events ho' hstart.matching hevents⟩

end Tableau

end LinearAssignment
