import LinearAssignment.Proofs.Chain.Confined
import LinearAssignment.Proofs.Matching.Greedy
import LinearAssignment.Tableau

/-!
The phases of a search as calls that may be made in any order.

From a fresh tableau a sequence of calls breaks off only where it is to follow a chain that comes to
no end.
-/

namespace LinearAssignment

/-- A call that changes a tableau. -/
inductive Phase (n : ℕ) where
  | reduce
  | extend
  | coverMatched
  | markZero
  | adjust
  | augment (row col : Fin n)
  /-- Covers these lines and no others. -/
  | cover (k : Cover n)

namespace Phase

variable {α : Type} {n : ℕ} [Cost α]

def run (t : Tableau α n) : Phase n → Except Fault (Tableau α n)
  | reduce => .ok t.reduce
  | extend => .ok t.extend
  | coverMatched => .ok t.coverMatched
  | markZero => .ok t.markZero.2
  | adjust => .ok t.adjust
  | augment row col => t.augment row col
  | cover k => .ok { t with cover := k }

def runs : Tableau α n → List (Phase n) → Except Fault (Tableau α n)
  | t, [] => .ok t
  | t, p :: phases =>
    match run t p with
    | .error f => .error f
    | .ok s => runs s phases

variable {t s : Tableau α n} {p : Phase n} {phases : List (Phase n)}

theorem runs_of_ok (h : run t p = .ok s) : runs t (p :: phases) = runs s phases := by
  rw [runs, h]

theorem runs_of_error {f : Fault} (h : run t p = .error f) : runs t (p :: phases) = .error f := by
  rw [runs, h]

end Phase

namespace Tableau

open Chain

variable {α : Type} {n : ℕ}

/-- All partners and all marks are positions of the grid. -/
structure Confined (t : Tableau α n) : Prop where
  matching : t.matching.Confined
  mark_lt (r : Fin n) (c : ℕ) (h : t.marks.get r = some c) : c < n

/-- The chain from a column comes to no end. -/
def Endless (t : Tableau α n) (c : Fin n) : Prop := ∀ rest o, ¬Route t.matching t.marks c rest o

/-- A sequence of calls breaks off where it follows a chain without an end. -/
def BreaksOff [Cost α] (t : Tableau α n) (phases : List (Phase n)) : Prop :=
  Phase.runs t phases = .error .circularChain ∧ ∃ before r c after s,
    phases = before ++ .augment r c :: after ∧ Phase.runs t before = .ok s ∧ s.Endless c

theorem confined_ofGrid (g : Grid α n) : (ofGrid g).Confined where
  matching := ⟨Matching.consistent_empty.col_lt, Matching.consistent_empty.row_lt⟩
  mark_lt r c h := by simp [ofGrid, noMarks] at h

theorem of_augment {t s : Tableau α n} {row col : ℕ} (h : t.augment row col = .ok s) :
    s.costs = t.costs ∧ s.grid = t.grid := by
  unfold augment at h
  split at h
  · cases h
  · split_ifs at h
    cases h
    exact ⟨rfl, rfl⟩

theorem augment_of_route {t : Tableau α n} {r c : Fin n} {rest : Chain} {o : Option (Fin n)}
    (h : Route t.matching t.marks c rest o) : t.augment r c = .ok { t with
      matching := t.matching.flip (.enter r c :: rest)
      cover := .empty
      marks := noMarks
      chain := .enter r c :: rest } := by
  have hlen := h.length_le
  have hstart : startingAt t.matching t.marks r c = .ok (.enter r c :: rest) := by
    rw [startingAt, h.beyond_eq (by omega)]
    rfl
  unfold augment
  rw [hstart]
  simp only [r.isLt, if_pos]

namespace Confined

variable {t : Tableau α n} (h : t.Confined)
include h

theorem augment (r c : Fin n) :
    (∃ s, t.augment r c = .ok s ∧ s.Confined) ∨
      t.augment r c = .error .circularChain ∧ t.Endless c := by
  by_cases hroute : ∃ rest o, Route t.matching t.marks c rest o
  · obtain ⟨rest, o, hroute⟩ := hroute
    refine .inl ⟨_, augment_of_route hroute, h.matching.flip ?_, ?_⟩
    · intro i j hl
      rcases List.mem_cons.mp hl with hl | hl
      · cases hl
        exact ⟨r.isLt, c.isLt⟩
      · obtain ⟨i', j', -, rfl, rfl, -⟩ := hroute.of_enter hl
        exact ⟨i'.isLt, j'.isLt⟩
    · intro i j hj
      simp [noMarks] at hj
  · have hbeyond := (exists_route_or_circular h.matching h.mark_lt (n + 1) c).resolve_left hroute
    refine .inr ⟨?_, fun rest o hr ↦ hroute ⟨rest, o, hr⟩⟩
    unfold Tableau.augment
    rw [startingAt, hbeyond]
    rfl

variable [Cost α]

theorem extend : t.extend.Confined where
  matching := Matching.extend_induction (P := Matching.Confined)
    (fun _ r c hm _ _ _ ↦ hm.link r.isLt c.isLt) h.matching
  mark_lt := h.mark_lt

theorem markZero : t.markZero.2.Confined := by
  cases hz : t.zero? with
  | none =>
    rw [markZero_of_none hz]
    exact h
  | some p =>
    rw [markZero_of_some hz]
    refine ⟨h.matching, ?_⟩
    intro r c hc
    dsimp only [mark] at hc
    rw [Table.get_setIfInBounds] at hc
    split_ifs at hc
    · exact Option.some.inj hc ▸ p.2.isLt
    · exact h.mark_lt r c hc

theorem adjust : t.adjust.Confined := by
  unfold Tableau.adjust
  split
  · exact ⟨h.matching, h.mark_lt⟩
  · exact h

theorem run (p : Phase n) : (∃ s, Phase.run t p = .ok s ∧ s.Confined) ∨
    Phase.run t p = .error .circularChain ∧ ∃ r c, p = .augment r c ∧ t.Endless c := by
  cases p with
  | reduce => exact .inl ⟨_, rfl, h.matching, h.mark_lt⟩
  | extend => exact .inl ⟨_, rfl, h.extend⟩
  | coverMatched => exact .inl ⟨_, rfl, h.matching, h.mark_lt⟩
  | markZero => exact .inl ⟨_, rfl, h.markZero⟩
  | adjust => exact .inl ⟨_, rfl, h.adjust⟩
  | augment r c => exact (h.augment r c).imp_right fun ⟨hf, he⟩ ↦ ⟨hf, r, c, rfl, he⟩
  | cover k => exact .inl ⟨_, rfl, h.matching, h.mark_lt⟩

theorem runs (phases : List (Phase n)) :
    (∃ s, Phase.runs t phases = .ok s) ∨ t.BreaksOff phases := by
  induction phases generalizing t with
  | nil => exact .inl ⟨t, rfl⟩
  | cons p phases ih =>
    rcases h.run p with ⟨s, hs, hconfined⟩ | ⟨hf, r, c, rfl, he⟩
    · rw [Phase.runs_of_ok hs]
      refine (ih hconfined).imp_right ?_
      rintro ⟨hf, before, r, c, after, u, rfl, hu, he⟩
      exact ⟨(Phase.runs_of_ok hs).trans hf, p :: before, r, c, after, u, rfl,
        (Phase.runs_of_ok hs).trans hu, he⟩
    · exact .inr ⟨Phase.runs_of_error hf, [], r, c, phases, t, rfl, rfl, he⟩

end Confined

end Tableau

end LinearAssignment
