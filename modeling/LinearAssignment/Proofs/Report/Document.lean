import LinearAssignment.Proofs.Toon.Document
import LinearAssignment.Proofs.Toon.Regain
import LinearAssignment.Report

/-!
Documents of reports: which reports come back of their documents, and what comes back of the others.
-/

namespace LinearAssignment

open Toon (Regains Scalar Section Value forall₂_map map_kept_eq_self_iff read?_write)
open Toon.Scalar (IsKept exists_regains_integer exists_regains_ofFloat isLine_text kept)
open Toon.Section (ReadsAsField)
open Toon.Token (IsKey)

/-! ### Names -/

/-- What the name of a record is read as. -/
def nameFields (name : Option String) : List (String × Value) :=
  (name.map fun s ↦ ("name", .scalar (.text (kept s)))).toList

theorem readsAsField_name (name : Option String) : List.Forall₂ ReadsAsField
    (name.map fun s ↦ Section.scalar "name" (.text s)).toList (nameFields name) := by
  have hkey : IsKey "name" := by decide +kernel
  cases name with
  | none => exact .nil
  | some s => exact .cons ⟨hkey, rfl, .scalar (isLine_text s)⟩ .nil

namespace Report

/-- Indices and totals are read as integers of 64 bits, signed, as long as they fit. -/
def Fits (r : Report) : Prop :=
  (∀ a ∈ r.assignments, a.row < 2 ^ 63 ∧ a.col < 2 ^ 63) ∧ Binary64.Fits r.totalCost

instance (r : Report) : Decidable r.Fits :=
  inferInstanceAs (Decidable ((∀ a ∈ r.assignments, _) ∧ _))

def regained (r : Report) : Report := { r with name := r.name.map kept }

theorem beq_iff {r r' : Report} : (r == r') = true ↔ r.name = r'.name ∧
    r.assignments = r'.assignments ∧ (r.totalCost == r'.totalCost) = true := by
  rw [← beq_iff_eq (a := r.name), ← beq_iff_eq (a := r.assignments), ← Bool.and_eq_true_iff,
    ← Bool.and_eq_true_iff]
  rfl

/-! ### What a report is read as -/

variable {index : ℕ → Scalar} {total : Scalar} {assignments : List Assignment}

def assignmentFields (index : ℕ → Scalar) (a : Assignment) : Value :=
  .object [("row", .scalar (index a.row)), ("col", .scalar (index a.col))]

theorem readsAsField_assignments (assignments : List Assignment)
    (hindex : ∀ i : ℕ, (Scalar.integer i).IsAtom (index i)) : ReadsAsField
      (.table "assignments" ["row", "col"]
        (assignments.map fun a ↦ [.integer a.row, .integer a.col]))
      ("assignments", .list (assignments.map (assignmentFields index))) := by
  have htable : Toon.IsTable 1 (assignments.map fun a ↦ [.integer a.row, .integer a.col])
      (assignments.map fun a ↦ [index a.row, index a.col]) :=
    forall₂_map (fun a ↦ ⟨rfl, .cons (hindex _) (.cons (hindex _) .nil)⟩) assignments
  have hkey : IsKey "assignments" := by decide +kernel
  have hcolumns : ∀ name ∈ ["row", "col"], IsKey name := by decide +kernel
  have hvalue : Section.ReadsAs (.table "assignments" ["row", "col"] _) _ :=
    .table rfl hcolumns rfl htable
  rw [List.map_map] at hvalue
  exact ⟨hkey, rfl, hvalue⟩

theorem readsAsField_totalCost {x : Float} (h : (Scalar.ofFloat x).IsAtom total) :
    ReadsAsField (.scalar "total_cost" (.ofFloat x)) ("total_cost", .scalar total) := by
  have hkey : IsKey "total_cost" := by decide +kernel
  exact ⟨hkey, rfl, .scalar h.isLine⟩

theorem regains_readAssignment? (hindex : ∀ i, Regains (i < 2 ^ 63) i (index i).toIndex?)
    (a : Assignment) : Regains (a.row < 2 ^ 63 ∧ a.col < 2 ^ 63) a
      (readAssignment? (assignmentFields index a)) := by
  refine (hindex a.row).map₂ (f := Assignment.mk) (hindex a.col) fun row col hrow hcol ↦ ?_
  rw [beq_iff_eq] at *
  rw [hrow, hcol]

theorem ofValue?_fields (name : Option String) :
    ofValue? (.object (nameFields name ++
      [("assignments", .list (assignments.map (assignmentFields index))),
        ("total_cost", .scalar total)])) =
    (assignments.mapM (readAssignment? ∘ assignmentFields index)).bind fun assignments ↦
      total.toFloat?.bind fun totalCost ↦ some ⟨name.map kept, assignments, totalCost⟩ := by
  rw [← List.mapM_map]
  cases name <;> rfl

theorem regains_ofToon? (r : Report) : Regains r.Fits r.regained (ofToon? r.toToon) := by
  choose index hindex hregains using exists_regains_integer
  obtain ⟨total, htotal, hcost⟩ := exists_regains_ofFloat r.totalCost
  have hread := read?_write <| List.rel_append (readsAsField_name r.name) <|
    .cons (readsAsField_assignments r.assignments hindex) <|
      .cons (readsAsField_totalCost htotal) .nil
  rw [ofToon?, toToon, toSections, hread, Option.bind_eq_bind, Option.bind_some, ofValue?_fields]
  exact (Regains.mapM (regains_readAssignment? hregains) r.assignments).map₂ hcost
    fun assignments cost hassignments hcost ↦
      beq_iff.mpr ⟨rfl, beq_iff_eq.mp hassignments, hcost⟩

theorem exists_ofToon?_iff (r : Report) :
    (∃ r', ofToon? r.toToon = some r' ∧ (r' == r) = true) ↔
      r.Fits ∧ ∀ s ∈ r.name, IsKept s := by
  refine (regains_ofToon? r).exists_iff_and fun r' hr ↦ ?_
  obtain ⟨hname, hassignments, hcost⟩ := beq_iff.mp hr
  rw [beq_iff, hname, ← map_kept_eq_self_iff]
  exact and_iff_left ⟨hassignments, hcost⟩

end Report

end LinearAssignment
