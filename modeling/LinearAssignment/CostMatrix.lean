import LinearAssignment.Cost
import LinearAssignment.Fault
import LinearAssignment.Grid

/-!
Cost matrices as a caller gives them: rows of any number and of any lengths.

`CostMatrix.check` admits the square matrices of finite costs whose rows span a range that the
search can work with, and names the first defect of any other.
-/

namespace LinearAssignment

abbrev CostMatrix (α : Type) := List (List α)

/-- Why a matrix is not admitted. -/
inductive Defect where
  | empty
  | notSquare (row found expected : Nat)
  | nonFinite (row col : Nat)
  /-- A multiple of the range of this row is infinite. -/
  | tooWide (row : Nat)
deriving DecidableEq

def Defect.message : Defect → String
  | empty => "cost matrix is empty"
  | notSquare row found expected =>
    "cost matrix is not square: row " ++ toString row ++ " has " ++ toString found ++
      " columns, expected " ++ toString expected
  | nonFinite row col =>
    "cost at (" ++ toString row ++ ", " ++ toString col ++ ") is not finite"
  | tooWide row =>
    "costs in row " ++ toString row ++ " span too wide a range to reduce without overflow"

namespace CostMatrix

variable {α : Type}

/-- The cost at a position: first the row is looked up, then the column. -/
def cost (costs : CostMatrix α) (row col : Nat) : Except Fault α :=
  entry costs row >>= fun vs ↦ entry vs col

variable [Cost α]

/-- The sum of the costs at given positions, from left to right. -/
def total (costs : CostMatrix α) (pairs : List (Nat × Nat)) : Except Fault α :=
  (pairs.mapM fun p ↦ costs.cost p.1 p.2).map Cost.sum

/-- The range of a row of a matrix of size `n`, taken `2 * n` times, is finite. This bounds what
reductions and adjustments can make of the row. -/
def spanFits (n : Nat) (vs : List α) : Bool :=
  match Cost.least? vs, Cost.greatest? vs with
  | some lo, some hi => Cost.isFinite (Cost.times (hi - lo) (2 * n))
  | _, _ => true

/-- The defect of one row of a matrix of size `n`. -/
def rowDefect? (n row : Nat) (vs : List α) : Option Defect :=
  if vs.length = n then
    match vs.findIdx? (fun v ↦ !Cost.isFinite v) with
    | some col => some (.nonFinite row col)
    | none => if spanFits n vs then none else some (.tooWide row)
  else some (.notSquare row vs.length n)

def defect? (costs : CostMatrix α) : Option Defect :=
  if costs.isEmpty then some .empty
  else costs.zipIdx.findSome? fun (vs, row) ↦ rowDefect? costs.length row vs

theorem length_of_rowDefect? {n row : Nat} {vs : List α} (h : rowDefect? n row vs = none) :
    vs.length = n := by
  unfold rowDefect? at h
  split at h
  · assumption
  · cases h

theorem square_of_defect? {costs : CostMatrix α} (h : defect? costs = none) :
    Grid.Square costs.length costs := by
  unfold defect? at h
  split at h
  · cases h
  · refine ⟨rfl, fun vs hvs ↦ ?_⟩
    obtain ⟨i, hi, rfl⟩ := List.getElem_of_mem hvs
    exact length_of_rowDefect? (List.findSome?_eq_none_iff.1 h (costs[i], i)
      (List.mk_mem_zipIdx_iff_getElem?.2 (List.getElem?_eq_getElem hi)))

def check (costs : CostMatrix α) : Except Defect (Grid α costs.length) :=
  match h : defect? costs with
  | some d => .error d
  | none => .ok (Grid.ofLists costs (square_of_defect? h))

theorem check_of_defect? {costs : CostMatrix α} (h : defect? costs = none) :
    check costs = .ok (Grid.ofLists costs (square_of_defect? h)) := by
  unfold check
  split
  · next h' => rw [h] at h'; cases h'
  · rfl

end CostMatrix

end LinearAssignment
