import LinearAssignment.CostMatrix
import LinearAssignment.Event
import LinearAssignment.Tableau

/-!
The search for a cheapest perfect matching.

A turn of the search takes an uncovered zero, after one adjustment where none is there. A zero in
an unmatched row augments the matching; a zero in a matched row exchanges the cover of the row's
column for a cover of the row. The search ends when every column is covered.
-/

namespace LinearAssignment

/-- What a search leaves: the last tableau, the total cost of its pairs, and the events on the
way. -/
structure Outcome (α : Type) (n : Nat) where
  tableau : Tableau α n
  total : α
  events : List (Event α)

namespace Tableau

variable {α : Type} {n : Nat} [Cost α]

def adjustEvents (t : Tableau α n) : List (Event α) := t.adjustment?.toList.map .adjusted

/-- Adjusts a tableau that has no uncovered zero. -/
def settle (t : Tableau α n) : Tableau α n := if t.zero?.isSome then t else t.adjust

def settleEvents (t : Tableau α n) : List (Event α) :=
  if t.zero?.isSome then [] else t.adjustEvents

/-- What is done with a marked zero: its row is free, or matched and exchanged for its column. -/
def place (t : Tableau α n) (p : Cell n) : Except Fault (Tableau α n × List (Event α)) :=
  match t.matching.colOf.get p.1 with
  | none =>
    (t.augment p.1 p.2).map fun s ↦ (s.coverMatched, [.augmented s.chain.length])
  | some col =>
    if h : col < n then
      let s := t.exchange p.1 ⟨col, h⟩
      .ok (s.adjust, .rowCovered p.1 p.2 :: s.adjustEvents)
    else .error (.outOfRange n col)

def turn (t : Tableau α n) : Except Fault (Tableau α n × List (Event α)) :=
  match t.settle.zero? with
  | none => .error .noZero
  | some p => ((t.settle.mark p).place p).map fun (s, events) ↦ (s, t.settleEvents ++ events)

/-- Turns until every column is covered. -/
def turns : Nat → Tableau α n → Except Fault (Tableau α n × List (Event α))
  | limit, t =>
    if t.cover.allCols then .ok (t, [])
    else
      match limit with
      | 0 => .error .unfinished
      | limit + 1 =>
        match t.turn with
        | .error f => .error f
        | .ok (s, events) => (turns limit s).map fun (final, later) ↦ (final, events ++ later)

def start (t : Tableau α n) : Tableau α n := t.reduce.extend.coverMatched

/-- A limit that no search from a consistent matching reaches: at most `n` exchanges come before
each augmentation, and there are no more augmentations than columns. -/
def turnLimit (n : Nat) : Nat := (n + 1) * (n + 1) * (n + 1)

def solve (t : Tableau α n) : Except Fault (Outcome α n) := do
  let (final, events) ← turns (turnLimit n) t.start
  let total ← CostMatrix.total final.costs.toLists final.matching.pairs
  return ⟨final, total,
    .started n :: .seeded t.start.matching.size n :: events ++ [.finished n total]⟩

end Tableau

def Outcome.pairs {α : Type} {n : Nat} (o : Outcome α n) : List (Nat × Nat) :=
  o.tableau.matching.pairs

inductive Failure where
  | invalid (defect : Defect)
  | broken (fault : Fault)
deriving DecidableEq

def Failure.message : Failure → String
  | invalid defect => defect.message
  | broken fault => fault.message

namespace CostMatrix

variable {α : Type} [Cost α]

def tableau (costs : CostMatrix α) : Except Defect (Tableau α costs.length) :=
  costs.check.map .ofGrid

def solve (costs : CostMatrix α) : Except Failure (Outcome α costs.length) :=
  match costs.tableau with
  | .error d => .error (.invalid d)
  | .ok t => t.solve.mapError .broken

end CostMatrix

end LinearAssignment
