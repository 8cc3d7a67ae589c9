import LinearAssignment.Cost
import LinearAssignment.Grid

/-!
Reduction of a grid: each row loses its least entry, then each column of the result loses its own.
-/

namespace LinearAssignment.Grid

variable {α : Type} {n : Nat} [Cost α]

def rowMinima (g : Grid α n) : Vector (Option α) n := Vector.ofFn fun r ↦ Cost.least? (g.row r)

def colMinima (g : Grid α n) : Vector (Option α) n := Vector.ofFn fun c ↦ Cost.least? (g.col c)

/-- A line without numbers has no least entry and keeps what it holds. -/
def less (v : α) : Option α → α
  | some m => v - m
  | none => v

def reduceRows (g : Grid α n) : Grid α n :=
  let minima := g.rowMinima
  ofFn fun r c ↦ less (g r c) (minima.get r)

def reduceCols (g : Grid α n) : Grid α n :=
  let minima := g.colMinima
  ofFn fun r c ↦ less (g r c) (minima.get c)

def reduce (g : Grid α n) : Grid α n := g.reduceRows.reduceCols

theorem reduceRows_value (g : Grid α n) (r c : Fin n) :
    g.reduceRows r c = less (g r c) (Cost.least? (g.row r)) := by
  simp [reduceRows, rowMinima]

theorem reduceCols_value (g : Grid α n) (r c : Fin n) :
    g.reduceCols r c = less (g r c) (Cost.least? (g.col c)) := by
  simp [reduceCols, colMinima]

end LinearAssignment.Grid
