/-!
Tables: vectors that are read at the positions of a finite range. Writing changes the entry at one
position and no other.
-/

namespace LinearAssignment.Table

variable {α β : Type} {n : Nat}

theorem get_eq_getElem (t : Vector α n) (i : Fin n) : t.get i = getElem t i.val i.isLt := rfl

theorem getElem?_eq_get (t : Vector α n) (i : Fin n) : t[i.val]? = some (t.get i) := by
  simp [get_eq_getElem]

theorem ext_get {t u : Vector α n} (h : ∀ i : Fin n, t.get i = u.get i) : t = u := by
  ext i hi
  exact h ⟨i, hi⟩

@[simp] theorem get_ofFn (f : Fin n → α) (i : Fin n) : (Vector.ofFn f).get i = f i := by
  simp [get_eq_getElem]

@[simp] theorem get_replicate (x : α) (i : Fin n) : (Vector.replicate n x).get i = x := by
  simp [get_eq_getElem]

@[simp] theorem get_map (f : α → β) (t : Vector α n) (i : Fin n) : (t.map f).get i = f (t.get i) := by
  simp [get_eq_getElem]

theorem get_setIfInBounds (t : Vector α n) (k : Nat) (x : α) (i : Fin n) :
    (t.setIfInBounds k x).get i = if k = i then x else t.get i := by
  simp [get_eq_getElem, Vector.getElem_setIfInBounds]

end LinearAssignment.Table
