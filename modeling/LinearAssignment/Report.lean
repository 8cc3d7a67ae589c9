import LinearAssignment.Toon.Reader
import LinearAssignment.Toon.Section

/-!
Reports: the outcome of a named problem, one assignment per row, and their documents.
-/

namespace LinearAssignment

structure Assignment where
  row : Nat
  col : Nat
deriving DecidableEq

structure Report where
  name : Option String
  assignments : List Assignment
  totalCost : Float
deriving BEq

namespace Report

open Toon (Scalar Section Value)

def colOf? (r : Report) (row : Nat) : Option Nat :=
  (r.assignments.find? fun a ↦ a.row == row).map Assignment.col

def toSections (r : Report) : List Section :=
  (r.name.map fun s ↦ Section.scalar "name" (.text s)).toList ++
    [.table "assignments" ["row", "col"]
      (r.assignments.map fun a ↦ [.integer a.row, .integer a.col]),
    .scalar "total_cost" (.ofFloat r.totalCost)]

def toToon (r : Report) : String := Toon.write r.toSections

/-- A name is a text; it may be null or missing. -/
def readName? : Option Value → Option (Option String)
  | none => some none
  | some v => if v.isNull then some none else v.text?.map some

def readAssignment? (v : Value) : Option Assignment := do
  match ← v.parts? ["row", "col"] with
  | [some row, some col] => some ⟨← row.index?, ← col.index?⟩
  | _ => none

def ofValue? (v : Value) : Option Report := do
  match ← v.parts? ["name", "assignments", "total_cost"] with
  | [name, some assignments, some totalCost] =>
    some ⟨← readName? name, ← (← assignments.items?).mapM readAssignment?, ← totalCost.float?⟩
  | _ => none

def ofToon? (text : String) : Option Report := Toon.read? text >>= ofValue?

end Report

end LinearAssignment
