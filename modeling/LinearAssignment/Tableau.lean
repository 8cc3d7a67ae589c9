import LinearAssignment.Chain
import LinearAssignment.Cover
import LinearAssignment.Grid.Reduce
import LinearAssignment.Matching.Greedy

/-!
The tableau of a search for a cheapest perfect matching, and the steps that change it.

The working grid differs from the costs by amounts that belong to rows and columns. A zero of the
working grid that the search has met is marked in its row; a marked zero may later enter the
matching.
-/

namespace LinearAssignment

structure Tableau (α : Type) (n : Nat) where
  costs : Grid α n
  grid : Grid α n
  matching : Matching n
  cover : Cover n
  /-- The column of the marked zero of each row. -/
  marks : Vector (Option Nat) n
  /-- The links of the last augmentation. -/
  chain : Chain

namespace Tableau

variable {α : Type} {n : Nat}

def noMarks : Vector (Option Nat) n := Vector.replicate n none

def ofGrid (g : Grid α n) : Tableau α n := ⟨g, g, .empty, .empty, noMarks, []⟩

def coverMatched (t : Tableau α n) : Tableau α n :=
  { t with cover := t.cover.matchedCols t.matching }

def mark (t : Tableau α n) (p : Cell n) : Tableau α n :=
  { t with marks := t.marks.setIfInBounds p.1 (some p.2.val) }

/-- Covers a row in place of its matched column. -/
def exchange (t : Tableau α n) (row col : Fin n) : Tableau α n :=
  { t with cover := t.cover.exchange row col }

/-- Follows the chain that begins at a cell and flips it. All marks and covers are taken away.
The row of the cell is looked up when the cell is adopted, after the whole chain has been
followed. -/
def augment (t : Tableau α n) (row col : Nat) : Except Fault (Tableau α n) :=
  match Chain.startingAt t.matching t.marks row col with
  | .error f => .error f
  | .ok chain =>
    if row < n then
      .ok { t with
        matching := t.matching.flip chain
        cover := .empty
        marks := noMarks
        chain := chain }
    else .error (.outOfRange n row)

variable [Cost α]

def reduce (t : Tableau α n) : Tableau α n := { t with grid := t.grid.reduce }

def extend (t : Tableau α n) : Tableau α n := { t with matching := t.matching.extend t.grid }

def zero? (t : Tableau α n) : Option (Cell n) := t.grid.zero? t.cover

/-- Looks for an uncovered zero and marks it. -/
def markZero (t : Tableau α n) : Option (Cell n) × Tableau α n :=
  match t.zero? with
  | some p => (some p, t.mark p)
  | none => (none, t)

def leastUncovered? (t : Tableau α n) : Option α := t.grid.leastUncovered? t.cover

/-- The amount by which an adjustment shifts the grid, if it changes the grid at all. -/
def adjustment? (t : Tableau α n) : Option α :=
  t.leastUncovered?.filter fun m ↦ 0 < m && Cost.isFinite m

/-- Shifts the grid so that the least uncovered entry becomes a zero. -/
def adjust (t : Tableau α n) : Tableau α n :=
  match t.adjustment? with
  | some m => { t with grid := t.grid.shift t.cover m }
  | none => t

theorem markZero_of_some {t : Tableau α n} {p : Cell n} (h : t.zero? = some p) :
    t.markZero = (some p, t.mark p) := by
  simp [markZero, h]

theorem markZero_of_none {t : Tableau α n} (h : t.zero? = none) : t.markZero = (none, t) := by
  simp [markZero, h]

theorem adjust_of_some {t : Tableau α n} {m : α} (h : t.adjustment? = some m) :
    t.adjust = { t with grid := t.grid.shift t.cover m } := by
  simp [adjust, h]

theorem adjust_of_none {t : Tableau α n} (h : t.adjustment? = none) : t.adjust = t := by
  simp [adjust, h]

end Tableau

end LinearAssignment
