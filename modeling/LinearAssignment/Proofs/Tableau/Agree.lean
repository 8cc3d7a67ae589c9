import LinearAssignment.Proofs.Cost.Mirror
import LinearAssignment.Search

/-!
Grids and tableaus of numbers that mirror each other. The same zeros are found in both, so the same
pairs are matched and the same lines covered; the entries keep mirroring each other as long as those
of the second grid stay within bounds.
-/

namespace LinearAssignment

open Cost

variable {α β : Type} {n : ℕ} {R : α → β → Prop} {B : β → Prop}

namespace Grid

/-- Related entries at every position. -/
def Agree (R : α → β → Prop) (g : Grid α n) (w : Grid β n) : Prop := ∀ r c, R (g r c) (w r c)

theorem Agree.map {g : Grid α n} {w : Grid β n} (h : g.Agree R w) {γ : Type} (ps : List γ)
    (row col : γ → Fin n) : List.Forall₂ R (ps.map fun p ↦ g (row p) (col p))
      (ps.map fun p ↦ w (row p) (col p)) := by
  rw [List.forall₂_map_left_iff, List.forall₂_map_right_iff, List.forall₂_same]
  exact fun p _ ↦ h (row p) (col p)

variable [Cost α] [Cost β]

section Decisions

variable (hR : Mirrors R B) {g : Grid α n} {w : Grid β n} (h : g.Agree R w)
include hR h

theorem Agree.zero?_eq (k : Cover n) : g.zero? k = w.zero? k := by
  unfold zero?
  congr
  funext p
  exact hR.beq_zero (h p.1 p.2)

theorem Agree.leastUncovered? (k : Cover n) :
    Option.Rel R (g.leastUncovered? k) (w.leastUncovered? k) :=
  hR.least? (h.map k.uncoveredCells Prod.fst Prod.snd)

theorem Agree.extendRow_eq (m : Matching n) (r : Fin n) :
    Matching.extendRow g m r = Matching.extendRow w m r := by
  have hzero : Matching.freeZero? g m r = Matching.freeZero? w m r := by
    unfold Matching.freeZero?
    congr
    funext c
    rw [hR.beq_zero (h r c)]
  rw [Matching.extendRow, Matching.extendRow, hzero]

theorem Agree.extend_eq (m : Matching n) : m.extend g = m.extend w := by
  have hrows : Matching.extendRow g = Matching.extendRow w := by
    funext m r
    exact h.extendRow_eq hR m r
  rw [Matching.extend, Matching.extend, hrows]

omit h in
theorem rel_less {x : α} {z : β} {lo : Option α} {lo' : Option β} (hx : R x z)
    (hlo : Option.Rel R lo lo') (hB : B (less z lo')) : R (less x lo) (less z lo') := by
  cases hlo with
  | none => exact hx
  | some hm => exact hR.sub hx hm hB

theorem Agree.reduceRows (hB : ∀ r c, B (w.reduceRows r c)) :
    g.reduceRows.Agree R w.reduceRows := by
  intro r c
  have hrow := hR.least? (h.map (List.finRange n) (fun _ ↦ r) id)
  have hB := hB r c
  rw [reduceRows_value] at hB
  rw [reduceRows_value, reduceRows_value]
  exact rel_less hR (h r c) hrow hB

theorem Agree.reduceCols (hB : ∀ r c, B (w.reduceCols r c)) :
    g.reduceCols.Agree R w.reduceCols := by
  intro r c
  have hcol := hR.least? (h.map (List.finRange n) id fun _ ↦ c)
  have hB := hB r c
  rw [reduceCols_value] at hB
  rw [reduceCols_value, reduceCols_value]
  exact rel_less hR (h r c) hcol hB

theorem Agree.shift (k : Cover n) {x : α} {z : β} (hx : R x z) (hB : ∀ r c, B (w.shift k z r c)) :
    (g.shift k x).Agree R (w.shift k z) := by
  intro r c
  have hB := hB r c
  simp only [Grid.shift, ofFn_value] at hB ⊢
  cases hr : k.rows.get r <;> cases hc : k.cols.get c <;> simp only [hr, hc] at hB ⊢
  · exact hR.sub (h r c) hx hB
  · exact h r c
  · exact h r c
  · exact hR.add (h r c) hx hB

end Decisions

end Grid

namespace Event

/-- The same event, with related amounts. -/
inductive Agree (R : α → β → Prop) : Event α → Event β → Prop
  | started (k : ℕ) : Agree R (.started k) (.started k)
  | seeded (k l : ℕ) : Agree R (.seeded k l) (.seeded k l)
  | rowCovered (r c : ℕ) : Agree R (.rowCovered r c) (.rowCovered r c)
  | adjusted {x : α} {z : β} (hx : R x z) : Agree R (.adjusted x) (.adjusted z)
  | augmented (k : ℕ) : Agree R (.augmented k) (.augmented k)
  | finished (k : ℕ) {x : α} {z : β} (hx : R x z) : Agree R (.finished k x) (.finished k z)

theorem Agree.imp {S : α → β → Prop} (h : ∀ x z, R x z → S x z) {e : Event α} {e' : Event β}
    (he : e.Agree R e') : e.Agree S e' := by
  cases he with
  | started k => exact .started k
  | seeded k l => exact .seeded k l
  | rowCovered r c => exact .rowCovered r c
  | adjusted hx => exact .adjusted (h _ _ hx)
  | augmented k => exact .augmented k
  | finished k hx => exact .finished k (h _ _ hx)

end Event

namespace Tableau

/-- Related entries in the costs and in the working grid, and everything else the same. -/
structure Agree (R : α → β → Prop) (t : Tableau α n) (s : Tableau β n) : Prop where
  costs : t.costs.Agree R s.costs
  grid : t.grid.Agree R s.grid
  matching : t.matching = s.matching
  cover : t.cover = s.cover
  marks : t.marks = s.marks
  chain : t.chain = s.chain

theorem agree_ofGrid {g : Grid α n} {w : Grid β n} (h : g.Agree R w) :
    (ofGrid g).Agree R (ofGrid w) := ⟨h, h, rfl, rfl, rfl, rfl⟩

namespace Agree

variable {t : Tableau α n} {s s' : Tableau β n}

theorem coverMatched (h : t.Agree R s) : t.coverMatched.Agree R s.coverMatched := by
  refine ⟨h.costs, h.grid, h.matching, ?_, h.marks, h.chain⟩
  dsimp only [Tableau.coverMatched]
  rw [h.cover, h.matching]

theorem mark (h : t.Agree R s) (p : Cell n) : (t.mark p).Agree R (s.mark p) := by
  refine ⟨h.costs, h.grid, h.matching, h.cover, ?_, h.chain⟩
  dsimp only [Tableau.mark]
  rw [h.marks]

theorem augment (h : t.Agree R s) {row col : ℕ} (hs : s.augment row col = .ok s') :
    ∃ t', t.augment row col = .ok t' ∧ t'.Agree R s' := by
  unfold Tableau.augment at hs ⊢
  rw [h.matching, h.marks]
  split at hs
  · cases hs
  · next chain hchain =>
    split_ifs at hs with hrow
    cases hs
    rw [if_pos hrow]
    exact ⟨_, rfl, h.costs, h.grid, rfl, rfl, rfl, rfl⟩

variable [Cost α] [Cost β] (hR : Mirrors R B) (h : t.Agree R s)
include hR h

theorem reduce (hrows : ∀ r c, B (s.grid.reduceRows r c)) (hB : ∀ r c, B (s.grid.reduce r c)) :
    t.reduce.Agree R s.reduce :=
  ⟨h.costs, (h.grid.reduceRows hR hrows).reduceCols hR hB, h.matching, h.cover, h.marks, h.chain⟩

theorem extend : t.extend.Agree R s.extend := by
  refine ⟨h.costs, h.grid, ?_, h.cover, h.marks, h.chain⟩
  dsimp only [Tableau.extend]
  rw [h.matching]
  exact h.grid.extend_eq hR s.matching

theorem zero?_eq : t.zero? = s.zero? := by
  rw [zero?, zero?, h.cover]
  exact h.grid.zero?_eq hR s.cover

theorem leastUncovered? : Option.Rel R t.leastUncovered? s.leastUncovered? := by
  rw [Tableau.leastUncovered?, Tableau.leastUncovered?, h.cover]
  exact h.grid.leastUncovered? hR s.cover

theorem adjustment? : Option.Rel R t.adjustment? s.adjustment? := by
  have hleast := h.leastUncovered? hR
  unfold Tableau.adjustment?
  generalize t.leastUncovered? = o at hleast
  generalize s.leastUncovered? = o' at hleast
  cases hleast with
  | none => exact .none
  | some hx =>
    simp only [Option.filter, hR.lt_iff hR.zero hx, hR.isFinite hx]
    split
    · exact .some hx
    · exact .none

theorem adjustEvents : List.Forall₂ (Event.Agree R) t.adjustEvents s.adjustEvents := by
  have hm := h.adjustment? hR
  unfold Tableau.adjustEvents
  generalize t.adjustment? = o at hm
  generalize s.adjustment? = o' at hm
  cases hm with
  | none => exact .nil
  | some hx => exact .cons (.adjusted hx) .nil

theorem adjust (hB : ∀ r c, B (s.adjust.grid r c)) : t.adjust.Agree R s.adjust := by
  have hm := h.adjustment? hR
  generalize ht : t.adjustment? = o at hm
  generalize hs : s.adjustment? = o' at hm
  cases hm with
  | none =>
    rw [adjust_of_none ht, adjust_of_none hs]
    exact h
  | some hx =>
    rw [adjust_of_some hs] at hB
    rw [adjust_of_some ht, adjust_of_some hs, h.cover]
    exact ⟨h.costs, h.grid.shift hR s.cover hx hB, h.matching, rfl, h.marks, h.chain⟩

end Agree

end Tableau

end LinearAssignment
