import LinearAssignment.Problem
import LinearAssignment.Proofs.Report.Document

/-!
Documents of problems: which problems come back of their documents, and what comes back of the
others.
-/

namespace LinearAssignment.Problem

open Toon (Regains Scalar Section Value forall₂_map map_kept_eq_self_iff read?_write)
open Toon.Scalar (IsKept exists_regains_ofFloat kept)
open Toon.Section (ReadsAsField)
open Toon.Token (IsKey)

/-- Costs are read as numbers as long as they fit. -/
def Fits (p : Problem) : Prop := ∀ vs ∈ p.costs, ∀ x ∈ vs, Binary64.Fits x

instance (p : Problem) : Decidable p.Fits :=
  inferInstanceAs (Decidable (∀ vs ∈ p.costs, ∀ x ∈ vs, Binary64.Fits x))

def regained (p : Problem) : Problem := { p with name := p.name.map kept }

theorem beq_iff {p q : Problem} :
    (p == q) = true ↔ p.name = q.name ∧ (p.costs == q.costs) = true := by
  rw [← beq_iff_eq (a := p.name), ← Bool.and_eq_true_iff]
  rfl

/-! ### What a problem is read as -/

variable {number : Float → Scalar} {costs : CostMatrix Float}

def costRow (number : Float → Scalar) (vs : List Float) : Value :=
  .list (vs.map fun x ↦ .scalar (number x))

theorem readsAsField_costs (costs : CostMatrix Float)
    (hnumber : ∀ x, (Scalar.ofFloat x).IsAtom (number x)) :
    ReadsAsField (.rows "costs" (costs.map fun vs ↦ vs.map Scalar.ofFloat))
      ("costs", .list (costs.map (costRow number))) := by
  have hrows : List.Forall₂ (List.Forall₂ Scalar.IsAtom)
      (costs.map fun vs ↦ vs.map Scalar.ofFloat) (costs.map fun vs ↦ vs.map number) :=
    forall₂_map (forall₂_map hnumber) costs
  have hkey : IsKey "costs" := by decide +kernel
  have hvalue : Section.ReadsAs (.rows "costs" _) _ := .rows hrows
  simp only [List.map_map, Function.comp_def] at hvalue
  exact ⟨hkey, rfl, hvalue⟩

theorem regains_readRow? (h : ∀ x, Regains (Binary64.Fits x) x (number x).toFloat?)
    (vs : List Float) : Regains (∀ x ∈ vs, Binary64.Fits x) vs (readRow? (costRow number vs)) := by
  have hread : readRow? (costRow number vs) = vs.mapM fun x ↦ (number x).toFloat? := List.mapM_map
  rw [hread]
  exact .mapM h vs

theorem ofValue?_fields (name : Option String) :
    ofValue? (.object (nameFields name ++ [("costs", .list (costs.map (costRow number)))])) =
      (costs.mapM (readRow? ∘ costRow number)).bind fun costs ↦ some ⟨name.map kept, costs⟩ := by
  rw [← List.mapM_map]
  cases name <;> rfl

theorem regains_read? (p : Problem) :
    Regains p.Fits p.regained (Toon.read? p.toToon >>= ofValue?) := by
  choose number hnumber hregains using exists_regains_ofFloat
  have hread := read?_write <| List.rel_append (readsAsField_name p.name) <|
    .cons (readsAsField_costs p.costs hnumber) .nil
  rw [toToon, toSections, hread, Option.bind_eq_bind, Option.bind_some, ofValue?_fields]
  exact (Regains.mapM (regains_readRow? hregains) p.costs).map fun costs hcosts ↦
    beq_iff.mpr ⟨rfl, hcosts⟩

theorem ofToon_eq_ok_iff {text : String} {p : Problem} :
    ofToon text = .ok p ↔ (Toon.read? text >>= ofValue?) = some p := by
  rw [ofToon]
  cases Toon.read? text >>= ofValue? <;> simp

theorem ofToon_eq_error {text : String} (h : (Toon.read? text >>= ofValue?) = none) :
    ofToon text = .error .malformed := by
  rw [ofToon, h]

theorem exists_ofToon_iff (p : Problem) :
    (∃ q, ofToon p.toToon = .ok q ∧ (q == p) = true) ↔ p.Fits ∧ ∀ s ∈ p.name, IsKept s := by
  simp only [ofToon_eq_ok_iff]
  refine (regains_read? p).exists_iff_and fun q hq ↦ ?_
  obtain ⟨hname, hcosts⟩ := beq_iff.mp hq
  rw [beq_iff, hname, ← map_kept_eq_self_iff]
  exact and_iff_left hcosts

theorem exists_ofToon {p : Problem} (h : p.Fits) :
    ∃ q, ofToon p.toToon = .ok q ∧ (q == p.regained) = true := by
  simp only [ofToon_eq_ok_iff]
  exact (regains_read? p).equal h

end LinearAssignment.Problem
