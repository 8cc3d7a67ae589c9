import LinearAssignment.Cost
import LinearAssignment.Matching

/-!
Covers: marks on the rows and columns of a grid. A cell is uncovered when neither its row nor its
column is marked.
-/

namespace LinearAssignment

@[ext] structure Cover (n : Nat) where
  rows : Vector Bool n
  cols : Vector Bool n
deriving DecidableEq

namespace Cover

variable {n : Nat}

def empty : Cover n := ⟨Vector.replicate n false, Vector.replicate n false⟩

def uncovers (k : Cover n) (p : Cell n) : Bool := !k.rows.get p.1 && !k.cols.get p.2

@[simp] theorem uncovers_eq_true {k : Cover n} {p : Cell n} :
    k.uncovers p = true ↔ k.rows.get p.1 = false ∧ k.cols.get p.2 = false := by
  simp [uncovers]

def uncoveredCells (k : Cover n) : List (Cell n) := (cells n).filter k.uncovers

theorem mem_uncoveredCells {k : Cover n} {p : Cell n} :
    p ∈ k.uncoveredCells ↔ k.rows.get p.1 = false ∧ k.cols.get p.2 = false := by
  simp [uncoveredCells, mem_cells]

def allCols (k : Cover n) : Bool := (List.finRange n).all k.cols.get

theorem allCols_eq_true {k : Cover n} : k.allCols = true ↔ ∀ c : Fin n, k.cols.get c = true := by
  simp [allCols]

/-- Covers exactly the matched columns and leaves the rows as they are. -/
def matchedCols (k : Cover n) (m : Matching n) : Cover n := ⟨k.rows, Vector.ofFn fun c ↦ (m.rowOf.get c).isSome⟩

def exchange (k : Cover n) (row col : Fin n) : Cover n :=
  ⟨k.rows.setIfInBounds row true, k.cols.setIfInBounds col false⟩

end Cover

namespace Grid

variable {α : Type} {n : Nat} [Cost α]

/-- The first uncovered zero in row-major order. -/
def zero? (g : Grid α n) (k : Cover n) : Option (Cell n) :=
  k.uncoveredCells.find? fun p ↦ g p.1 p.2 == 0

def leastUncovered? (g : Grid α n) (k : Cover n) : Option α :=
  Cost.least? (k.uncoveredCells.map fun p ↦ g p.1 p.2)

/-- Lowers the uncovered cells by an amount and raises the doubly covered ones by it. -/
def shift (g : Grid α n) (k : Cover n) (amount : α) : Grid α n :=
  ofFn fun r c ↦
    match k.rows.get r, k.cols.get c with
    | true, true => g r c + amount
    | false, false => g r c - amount
    | _, _ => g r c

end Grid

end LinearAssignment
