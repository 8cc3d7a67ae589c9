import LinearAssignment.Cost
import Mathlib.Algebra.Order.Ring.Rat

/-!
Costs with a value.

The laws hold of rounded arithmetic as well as of exact arithmetic. They are all that the search
needs in order to end with a perfect matching.
-/

namespace LinearAssignment.Cost

/-- Numbers are compared by their values, and differences respect them. An infinite number may
have any value beyond those of the finite ones. -/
class Lawful (α : Type) [Cost α] where
  value : α → ℚ
  value_zero : value 0 = 0
  isFinite_zero : isFinite (0 : α) = true
  isNumber_of_isFinite {a : α} (h : isFinite a = true) : isNumber a = true
  lt_iff {a b : α} (ha : isNumber a = true) (hb : isNumber b = true) : a < b ↔ value a < value b
  beq_iff {a b : α} (ha : isNumber a = true) (hb : isNumber b = true) :
    (a == b) = true ↔ value a = value b
  isNumber_sub {a b : α} (ha : isNumber a = true) (hb : isFinite b = true) :
    isNumber (a - b) = true
  value_sub_self {a : α} (ha : isFinite a = true) : value (a - a) = 0
  value_sub_mono {a b c : α} (ha : isNumber a = true) (hb : isNumber b = true)
    (hc : isFinite c = true) (h : value a ≤ value b) : value (a - c) ≤ value (b - c)
  value_sub_le {a b : α} (ha : isNumber a = true) (hb : isFinite b = true) (h : 0 ≤ value b) :
    value (a - b) ≤ value a
  isNumber_add {a b : α} (ha : isNumber a = true) (hb : isNumber b = true) (ha' : 0 ≤ value a)
    (hb' : 0 ≤ value b) : isNumber (a + b) = true
  value_add_nonneg {a b : α} (ha : isNumber a = true) (hb : isNumber b = true)
    (ha' : 0 ≤ value a) (hb' : 0 ≤ value b) : 0 ≤ value (a + b)
  isFinite_of_le {a b : α} (ha : isNumber a = true) (hb : isFinite b = true) (h : 0 ≤ value a)
    (hab : value a ≤ value b) : isFinite a = true
  isFinite_of_times {a : α} {k : ℕ} (h : isFinite (times a k) = true) : isFinite a = true

/-- A number that is not negative. -/
def Nonneg {α : Type} [Cost α] (a : α) : Prop := isNumber a = true ∧ ¬a < 0

instance {α : Type} [Cost α] (a : α) : Decidable (Nonneg a) := inferInstanceAs (Decidable (_ ∧ _))

/-- Taking a zero away leaves the value as it is. -/
class Neutral (α : Type) [Cost α] [Lawful α] : Prop where
  value_sub {a b : α} (ha : isNumber a = true) (hb : isNumber b = true)
    (h : Lawful.value b = 0) : Lawful.value (a - b) = Lawful.value a

/-- A difference of finite numbers is zero only where they have the same value: what is left of two
close numbers is not rounded away. -/
class Separating (α : Type) [Cost α] [Lawful α] : Prop where
  value_eq_of_sub {a b : α} (ha : isFinite a = true) (hb : isFinite b = true)
    (h : Lawful.value (a - b) = 0) : Lawful.value a = Lawful.value b

open Lawful

variable {α : Type} [Cost α] [Lawful α]

theorem isNumber_zero : isNumber (0 : α) = true := isNumber_of_isFinite isFinite_zero

theorem nonneg_iff {a : α} : Nonneg a ↔ isNumber a = true ∧ 0 ≤ value a := by
  refine and_congr_right fun ha ↦ ?_
  rw [lt_iff ha isNumber_zero, value_zero, not_lt]

theorem beq_zero_iff {a : α} (ha : isNumber a = true) : (a == 0) = true ↔ value a = 0 := by
  rw [beq_iff ha isNumber_zero, value_zero]

theorem zero_lt_iff {a : α} (ha : isNumber a = true) : 0 < a ↔ 0 < value a := by
  rw [lt_iff isNumber_zero ha, value_zero]

theorem nonneg_sub {a b : α} (ha : isNumber a = true) (hb : isFinite b = true)
    (h : value b ≤ value a) : Nonneg (a - b) := by
  refine nonneg_iff.mpr ⟨isNumber_sub ha hb, ?_⟩
  rw [← value_sub_self hb]
  exact value_sub_mono (isNumber_of_isFinite hb) ha hb h

theorem sub_beq_zero_iff [Separating α] {a b : α} (ha : isFinite a = true)
    (hb : isFinite b = true) (h : value b ≤ value a) : (a - b == 0) = true ↔ (a == b) = true := by
  have hna := isNumber_of_isFinite ha
  have hnb := isNumber_of_isFinite hb
  rw [beq_zero_iff (isNumber_sub hna hb), beq_iff hna hnb]
  refine ⟨Separating.value_eq_of_sub ha hb, fun heq ↦ le_antisymm ?_ ?_⟩
  · rw [← value_sub_self hb]
    exact value_sub_mono hna hnb hb heq.le
  · exact (nonneg_iff.mp (nonneg_sub hna hb h)).2

theorem nonneg_add {a b : α} (ha : Nonneg a) (hb : Nonneg b) : Nonneg (a + b) := by
  obtain ⟨ha, ha'⟩ := nonneg_iff.mp ha
  obtain ⟨hb, hb'⟩ := nonneg_iff.mp hb
  exact nonneg_iff.mpr ⟨isNumber_add ha hb ha' hb', value_add_nonneg ha hb ha' hb'⟩

theorem isFinite_sub {a b : α} (ha : isFinite a = true) (hb : isFinite b = true)
    (hb' : 0 ≤ value b) (h : value b ≤ value a) : isFinite (a - b) = true := by
  have ha' := isNumber_of_isFinite ha
  obtain ⟨hn, hd⟩ := nonneg_iff.mp (nonneg_sub ha' hb h)
  exact isFinite_of_le hn ha hd (value_sub_le ha' hb hb')

theorem value_lesser {a b : α} (ha : isNumber a = true) (hb : isNumber b = true) :
    value (lesser a b) ≤ value a ∧ value (lesser a b) ≤ value b := by
  unfold lesser
  split_ifs with h <;> rw [lt_iff hb ha] at h
  · exact ⟨h.le, le_rfl⟩
  · exact ⟨le_rfl, not_lt.mp h⟩

theorem value_greater {a b : α} (ha : isNumber a = true) (hb : isNumber b = true) :
    value a ≤ value (greater a b) ∧ value b ≤ value (greater a b) := by
  unfold greater
  split_ifs with h <;> rw [lt_iff ha hb] at h
  · exact ⟨h.le, le_rfl⟩
  · exact ⟨le_rfl, not_lt.mp h⟩

section Fold

variable {f : α → α → α} {k : α → ℚ} (hf : ∀ a b, f a b = a ∨ f a b = b)
  (hk : ∀ a b, isNumber a = true → isNumber b = true → k (f a b) ≤ k a ∧ k (f a b) ≤ k b)
include hf hk

omit [Lawful α] in
/-- Choosing the one of two numbers with the lesser key chooses the least of a list. -/
theorem foldl_least (v : α) (vs : List α) (h : ∀ w ∈ v :: vs, isNumber w = true) :
    vs.foldl f v ∈ v :: vs ∧ ∀ w ∈ v :: vs, k (vs.foldl f v) ≤ k w := by
  induction vs generalizing v with
  | nil => simp
  | cons u vs ih =>
    obtain ⟨hv, hu, hvs⟩ : isNumber v = true ∧ isNumber u = true ∧ ∀ w ∈ vs, isNumber w = true := by
      simpa using h
    have hfv : isNumber (f v u) = true := by rcases hf v u with e | e <;> rw [e] <;> assumption
    obtain ⟨hmem, hle⟩ := ih (f v u) (by simpa [hfv] using hvs)
    obtain ⟨hlv, hlu⟩ := hk v u hv hu
    rw [List.foldl_cons]
    refine ⟨?_, fun w hw ↦ ?_⟩
    · rcases List.mem_cons.mp hmem with e | hmem
      · rw [e]
        rcases hf v u with e | e <;> simp [e]
      · simp [hmem]
    · have hfirst := hle _ List.mem_cons_self
      rcases List.mem_cons.mp hw with rfl | hw
      · exact hfirst.trans hlv
      · rcases List.mem_cons.mp hw with rfl | hw
        · exact hfirst.trans hlu
        · exact hle w (List.mem_cons_of_mem _ hw)

omit [Lawful α] in
theorem foldNumbers?_least {vs : List α} (h : ∀ v ∈ vs, isNumber v = true) (hne : vs ≠ []) :
    ∃ m ∈ vs, foldNumbers? f vs = some m ∧ ∀ v ∈ vs, k m ≤ k v := by
  have hfilter : vs.filter isNumber = vs := List.filter_eq_self.mpr h
  cases vs with
  | nil => exact absurd rfl hne
  | cons v vs =>
    obtain ⟨hmem, hle⟩ := foldl_least hf hk v vs h
    exact ⟨_, hmem, by simp only [foldNumbers?, hfilter], hle⟩

end Fold

theorem exists_least? {vs : List α} (h : ∀ v ∈ vs, isNumber v = true) (hne : vs ≠ []) :
    ∃ m ∈ vs, least? vs = some m ∧ ∀ v ∈ vs, value m ≤ value v :=
  foldNumbers?_least (f := lesser) (fun a b ↦ by unfold lesser; split_ifs <;> simp)
    (fun _ _ ↦ value_lesser) h hne

theorem exists_greatest? {vs : List α} (h : ∀ v ∈ vs, isNumber v = true) (hne : vs ≠ []) :
    ∃ m ∈ vs, greatest? vs = some m ∧ ∀ v ∈ vs, value v ≤ value m := by
  obtain ⟨m, hm, he, hle⟩ := foldNumbers?_least (f := greater) (k := fun a ↦ -value a)
    (fun a b ↦ by unfold greater; split_ifs <;> simp)
    (fun _ _ ha hb ↦ (value_greater ha hb).imp neg_le_neg neg_le_neg) h hne
  exact ⟨m, hm, he, fun v hv ↦ neg_le_neg_iff.mp (hle v hv)⟩

end LinearAssignment.Cost
