import LinearAssignment.Proofs.Search.Lockstep

/-!
Searches beside each other. No call looks at the costs, so searches whose working grids are related
after the reduction go the same way from there, whatever the costs are.
-/

namespace LinearAssignment

open Cost

namespace Tableau

variable {α β : Type} {n : ℕ} {R : α → β → Prop} {B : β → Prop}

def withCosts (t : Tableau α n) (g : Grid α n) : Tableau α n := { t with costs := g }

/-- Related entries in the working grids, and everything else the same, whatever the costs are. -/
def Beside (R : α → β → Prop) (t : Tableau α n) (s : Tableau β n) : Prop :=
  (t.withCosts t.grid).Agree R (s.withCosts s.grid)

variable [Cost α] [Cost β] {p q : Phase n} {t t' : Tableau α n} {s s' : Tableau β n}
  {events : List (Event α)} {events' : List (Event β)}

theorem adjust_withCosts (t : Tableau α n) (g : Grid α n) :
    (t.withCosts g).adjust = t.adjust.withCosts g := by
  cases hm : t.adjustment? with
  | none => rw [adjust_of_none hm, adjust_of_none (t := t.withCosts g) hm]
  | some m =>
    rw [adjust_of_some hm, adjust_of_some (t := t.withCosts g) hm]
    rfl

/-- No call looks at the costs. -/
theorem Step.withCosts (h : Step p t events q t') (g : Grid α n) :
    Step p (t.withCosts g) events q (t'.withCosts g) := by
  cases h with
  | reduce => exact .reduce (t.withCosts g)
  | extend => exact .extend (t.withCosts g)
  | coverMatched => exact .coverMatched (t.withCosts g)
  | missed hcols hz => exact .missed (t := t.withCosts g) hcols hz
  | free hcols hz hr => exact .free (t := t.withCosts g) hcols hz hr
  | matched hcols hz hd => exact .matched (t := t.withCosts g) hcols hz hd
  | adjust =>
    have hstep := Step.adjust (t.withCosts g)
    rwa [adjust_withCosts] at hstep
  | @augment _ _ r c ht =>
    refine .augment (t := t.withCosts g) (s := t'.withCosts g) ?_
    unfold Tableau.augment at ht ⊢
    split at ht
    · cases ht
    · next chain hchain =>
      split_ifs at ht with hr
      cases ht
      rw [show Chain.startingAt (t.withCosts g).matching (t.withCosts g).marks r c = .ok chain
        from hchain]
      simp only [hr, if_true]
      rfl
  | cover k => exact .cover k (t.withCosts g)

namespace Beside

theorem step (hR : Mirrors R B) (h : t.Beside R s) (hs : Step p s events' q s')
    (hne : p ≠ .reduce) (hB : ∀ r c, B (s'.grid r c)) :
    ∃ events t', Step p t events q t' ∧ t'.Beside R s' ∧
      List.Forall₂ (Event.Agree R) events events' := by
  obtain ⟨events, t', ht, hagree, hevents⟩ :=
    Agree.step hR h (hs.withCosts s.grid) (fun hp ↦ absurd hp hne) hB
  exact ⟨events, t'.withCosts t.costs, ht.withCosts t.costs,
    ⟨hagree.grid, hagree.grid, hagree.matching, hagree.cover, hagree.marks, hagree.chain⟩, hevents⟩

/-- Searches that are beside each other after the reduction stay so. -/
theorem exists_abreast [Lawful β] (hR : Mirrors R B) (h : t.reduce.Beside R s.reduce)
    (hs : s.start.Ready) (hbounded : s.Bounded B) (hpath : Path .reduce s events' p s')
    (hp : p ≠ .reduce) : ∃ events t', Abreast t s events events' p t' s' ∧ t'.Beside R s' ∧
      List.Forall₂ (Event.Agree R) events events' := by
  refine (hpath.of_ne_reduce hp).invariant (I := fun events' p s' ↦
    ∃ events t', Abreast t s events events' p t' s' ∧ t'.Beside R s' ∧
      List.Forall₂ (Event.Agree R) events events') [] (fun hstep _ hne hpaths ↦ ?_) (.extend hs)
    nofun ⟨_, _, Abreast.refl.tail (.reduce t) (.reduce s), h, .nil⟩
  obtain ⟨events, u, hpaths, hbeside, hevents⟩ := hpaths
  obtain ⟨later, v, hv, hbeside', hlater⟩ := hbeside.step hR hstep hne
    (hbounded.entry (hpaths.right.tail hstep) hstep.ne_reduce)
  exact ⟨_, v, hpaths.tail hv hstep, hbeside', List.rel_append hevents hlater⟩

theorem start_matching (hR : Mirrors R B) (h : t.reduce.Beside R s.reduce) :
    t.start.matching = s.start.matching := (h.extend hR).coverMatched.matching

/-- All columns are covered where the second search ends, and so the first ends there too. -/
theorem exists_outcomes [Lawful α] [Lawful β] (hR : Mirrors R B)
    (h : t.reduce.Beside R s.reduce) (ht : t.start.Ready) (hs : s.start.Ready)
    (hbounded : s.Bounded B) : ∃ i j events events' o o' π, Reaches t i events o π ∧
      Reaches s j events' o' π ∧ Abreast t s events events' .markZero o.tableau o'.tableau ∧
        o.pairs = o'.pairs ∧
          List.Forall₂ (Event.Agree R) o.events.dropLast o'.events.dropLast := by
  obtain ⟨i, events, o, π, ho⟩ := ht.exists_outcome
  obtain ⟨j, events', o', π', ho'⟩ := hs.exists_outcome
  obtain ⟨later, v, hpaths, hbeside, hevents⟩ :=
    exists_abreast hR h hs hbounded (ho'.path hs) nofun
  obtain ⟨rfl, rfl⟩ := ho.eq_of_abreast ht hpaths hbeside.cover ho'.allCols
  obtain rfl : π = π' := by
    have hmatching : o.tableau.matching = o'.tableau.matching := hbeside.matching
    exact ho.perfect.unique (hmatching ▸ ho'.perfect)
  exact ⟨i, j, _, _, o, o', π, ho, ho', hpaths, congrArg Matching.pairs hbeside.matching,
    ho.agree_events ho' (start_matching hR h) hevents⟩

end Beside

end Tableau

end LinearAssignment
