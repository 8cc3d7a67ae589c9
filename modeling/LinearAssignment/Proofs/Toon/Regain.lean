import LinearAssignment.Proofs.Toon.Text
import LinearAssignment.Toon.Value

/-!
What comes back of the values of a record: an equal one, if it fits, and nothing otherwise.
-/

namespace LinearAssignment.Toon

/-- A value that fits is read as an equal one, and any other is refused. -/
structure Regains {α : Type} [BEq α] (fits : Prop) (a : α) (read : Option α) : Prop where
  equal : fits → ∃ b, read = some b ∧ (b == a) = true
  refused : ¬fits → read = none

namespace Regains

variable {α β γ : Type} [BEq α] [BEq β] [BEq γ] {P Q : Prop} {a : α} {b : β} {x : Option α}
  {y : Option β}

theorem congr (h : Regains P a x) (hQ : Q ↔ P) : Regains Q a x :=
  ⟨fun hq ↦ h.equal (hQ.mp hq), fun hq ↦ h.refused (mt hQ.mpr hq)⟩

/-- One that is equal to another comes back only of what fits. -/
theorem exists_iff_and {a' : α} (h : Regains P a x)
    (hQ : ∀ b, (b == a) = true → ((b == a') = true ↔ Q)) :
    (∃ b, x = some b ∧ (b == a') = true) ↔ P ∧ Q := by
  constructor
  · rintro ⟨b, hx, hb⟩
    have hP : P := not_not.mp fun hP ↦ by cases hx.symm.trans (h.refused hP)
    obtain ⟨c, hc, hca⟩ := h.equal hP
    obtain rfl : c = b := Option.some.inj (hc.symm.trans hx)
    exact ⟨hP, (hQ c hca).mp hb⟩
  · rintro ⟨hP, hq⟩
    obtain ⟨b, hx, hb⟩ := h.equal hP
    exact ⟨b, hx, (hQ b hb).mpr hq⟩

theorem map {f : α → β} (h : Regains P a x)
    (hf : ∀ a', (a' == a) = true → (f a' == f a) = true) :
    Regains P (f a) (x.bind fun a ↦ some (f a)) := by
  constructor
  · intro hP
    obtain ⟨a', hx, ha⟩ := h.equal hP
    exact ⟨f a', by rw [hx, Option.bind_some], hf a' ha⟩
  · intro hP
    rw [h.refused hP, Option.bind_none]

theorem map₂ {f : α → β → γ} (hx : Regains P a x) (hy : Regains Q b y)
    (hf : ∀ a' b', (a' == a) = true → (b' == b) = true → (f a' b' == f a b) = true) :
    Regains (P ∧ Q) (f a b) (x.bind fun a ↦ y.bind fun b ↦ some (f a b)) := by
  constructor
  · rintro ⟨hP, hQ⟩
    obtain ⟨a', hx, ha⟩ := hx.equal hP
    obtain ⟨b', hy, hb⟩ := hy.equal hQ
    exact ⟨f a' b', by rw [hx, hy, Option.bind_some, Option.bind_some], hf a' b' ha hb⟩
  · intro h
    -- The first part that does not fit ends the reading.
    by_cases hP : P
    · rw [hy.refused fun hQ ↦ h ⟨hP, hQ⟩]
      exact Option.bind_fun_none x
    · rw [hx.refused hP, Option.bind_none]

theorem mapM {f : α → Option α} {fits : α → Prop} (h : ∀ a, Regains (fits a) a (f a))
    (l : List α) : Regains (∀ a ∈ l, fits a) l (l.mapM f) := by
  induction l with
  | nil => exact ⟨fun _ ↦ ⟨[], rfl, rfl⟩, fun hl ↦ absurd nofun hl⟩
  | cons a l ih =>
    have hcons := map₂ (f := List.cons) (h a) ih fun a' l' ha hl ↦ Bool.and_eq_true_iff.mpr ⟨ha, hl⟩
    rw [List.mapM_cons]
    simp only [Option.bind_eq_bind, Option.pure_def]
    exact hcons.congr List.forall_mem_cons

end Regains

theorem forall₂_map {α β γ : Type} {R : β → γ → Prop} {f : α → β} {g : α → γ}
    (h : ∀ a, R (f a) (g a)) (l : List α) : List.Forall₂ R (l.map f) (l.map g) :=
  List.forall₂_map_left_iff.mpr <| List.forall₂_map_right_iff.mpr <|
    List.forall₂_same.mpr fun a _ ↦ h a

/-! ### Scalars -/

namespace Scalar

/-- The number that is written is a single token, wherever it stands. -/
theorem exists_regains_ofFloat (x : Float) :
    ∃ r, (ofFloat x).IsAtom r ∧ Regains (Binary64.Fits x) x r.toFloat? := by
  obtain ⟨r, hr, hfits, hlarge⟩ := exists_readTrimmed? x
  exact ⟨r, isAtom_of_readTrimmed? (write_ofFloat x) hr, hfits, hlarge⟩

theorem exists_regains_integer (i : ℕ) :
    ∃ r, (integer i).IsAtom r ∧ Regains (i < 2 ^ 63) i r.toIndex? := by
  obtain ⟨r, hr, hi⟩ := exists_readTrimmed?_integer i
  refine ⟨r, isAtom_of_readTrimmed? (.inl (isNumeral_writeInteger i)) hr, fun h ↦ ?_, fun h ↦ ?_⟩
  · exact ⟨i, hi.trans (if_pos h), beq_self_eq_true i⟩
  · exact hi.trans (if_neg h)

theorem IsAtom.isLine {v r : Scalar} (h : v.IsAtom r) : IsLine v r := by
  obtain ⟨t, ht, hr⟩ := h.lexes
  exact isLine_of_lexes ht hr

/-! ### Texts -/

/-- A text comes back as it is if it is quoted, or begins with a digit, or has no white space at the
end of its first word. -/
def IsKept (s : String) : Prop :=
  needsQuotes s.toList = true ∨ s.toList.head?.any Char.isDigit = true ∨
    (s.toList.takeWhile (· ≠ ' ')).getLast?.any Text.isBlank = false

instance (s : String) : Decidable (IsKept s) := inferInstanceAs (Decidable (_ ∨ _ ∨ _))

/-- The text that is read where a text has been written alone on its line. -/
def kept (s : String) : String := String.ofList (regained s.toList)

theorem kept_eq_self_iff {s : String} : kept s = s ↔ IsKept s := by
  rw [IsKept, ← regained_eq_self_iff, kept, ← String.toList_inj, String.toList_ofList]

end Scalar

theorem map_kept_eq_self_iff {name : Option String} :
    name.map Scalar.kept = name ↔ ∀ s ∈ name, Scalar.IsKept s := by
  cases name with
  | none => simp
  | some s => simp [Scalar.kept_eq_self_iff]

end LinearAssignment.Toon
