import LinearAssignment.Report
import LinearAssignment.Search

/-!
Problems: a cost matrix with an optional name, its documents, and its solution.
-/

namespace LinearAssignment

structure Problem where
  name : Option String
  costs : CostMatrix Float
deriving BEq

namespace Problem

open Toon (Scalar Section Value)

/-- Why a problem cannot be read or solved. -/
inductive Error where
  | missingFile
  /-- The bytes of the file are no text. -/
  | notText
  | malformed
  | unsolved (failure : Failure)
deriving DecidableEq

def Error.message : Error → String
  | missingFile => "failed to read problem file: No such file or directory (os error 2)"
  | notText => "failed to read problem file: stream did not contain valid UTF-8"
  | malformed => "malformed document"
  | unsolved (.invalid defect) => "invalid cost matrix: " ++ defect.message
  | unsolved (.broken fault) => fault.message

def ofCosts (costs : CostMatrix Float) : Problem := ⟨none, costs⟩

def withName (p : Problem) (name : String) : Problem := { p with name := some name }

def toSections (p : Problem) : List Section :=
  (p.name.map fun s ↦ Section.scalar "name" (.text s)).toList ++
    [.rows "costs" (p.costs.map fun vs ↦ vs.map Scalar.ofFloat)]

def toToon (p : Problem) : String := Toon.write p.toSections

def readRow? (v : Value) : Option (List Float) := v.items? >>= fun vs ↦ vs.mapM Value.float?

def ofValue? (v : Value) : Option Problem := do
  match ← v.parts? ["name", "costs"] with
  | [name, some costs] => some ⟨← Report.readName? name, ← (← costs.items?).mapM readRow?⟩
  | _ => none

def ofToon (text : String) : Except Error Problem :=
  match Toon.read? text >>= ofValue? with
  | some p => .ok p
  | none => .error .malformed

/-- The problem in a file, given its bytes if there is such a file. -/
def ofFile (bytes : Option ByteArray) : Except Error Problem :=
  match bytes with
  | none => .error .missingFile
  | some bytes =>
    match String.fromUTF8? bytes with
    | none => .error .notText
    | some text => ofToon text

/-- The report of a cheapest assignment, under the name of the problem. -/
def solve (p : Problem) : Except Error Report :=
  match p.costs.solve with
  | .error failure => .error (.unsolved failure)
  | .ok o =>
    match p.costs.total o.pairs with
    | .error fault => .error (.unsolved (.broken fault))
    | .ok total => .ok ⟨p.name, o.pairs.map fun (row, col) ↦ ⟨row, col⟩, total⟩

end Problem

end LinearAssignment
