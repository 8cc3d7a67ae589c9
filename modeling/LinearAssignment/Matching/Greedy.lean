import LinearAssignment.Cost
import LinearAssignment.Matching

/-!
Greedy extension of a matching: row by row, an unmatched row takes the least free column in which
it holds a zero.
-/

namespace LinearAssignment.Matching

variable {α : Type} {n : Nat} [Cost α]

/-- The column that an unmatched row takes. -/
def freeZero? (g : Grid α n) (m : Matching n) (r : Fin n) : Option (Fin n) :=
  (List.finRange n).find? fun c ↦ g r c == 0 && (m.rowOf.get c).isNone

def extendRow (g : Grid α n) (m : Matching n) (r : Fin n) : Matching n :=
  if (m.colOf.get r).isSome then m
  else
    match freeZero? g m r with
    | some c => m.link r c
    | none => m

def extend (g : Grid α n) (m : Matching n) : Matching n :=
  (List.finRange n).foldl (extendRow g) m

theorem extendRow_of_isSome {g : Grid α n} {m : Matching n} {r : Fin n}
    (h : (m.colOf.get r).isSome) : extendRow g m r = m := if_pos h

theorem extendRow_of_freeZero? {g : Grid α n} {m : Matching n} {r c : Fin n}
    (h : m.colOf.get r = none) (hc : freeZero? g m r = some c) :
    extendRow g m r = m.link r c := by
  simp [extendRow, h, hc]

theorem extendRow_of_freeZero?_eq_none {g : Grid α n} {m : Matching n} {r : Fin n}
    (h : freeZero? g m r = none) : extendRow g m r = m := by
  simp [extendRow, h]

end LinearAssignment.Matching
