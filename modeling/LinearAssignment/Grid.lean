import LinearAssignment.Table

/-!
Square grids of numbers, and their cells in row-major order.
-/

namespace LinearAssignment

structure Grid (α : Type) (n : Nat) where
  rows : Vector (Vector α n) n

abbrev Cell (n : Nat) := Fin n × Fin n

/-- The cells of a grid, row by row and from left to right in each row. -/
def cells (n : Nat) : List (Cell n) :=
  (List.finRange n).flatMap fun r ↦ (List.finRange n).map fun c ↦ (r, c)

theorem mem_cells {n : Nat} (p : Cell n) : p ∈ cells n := by
  simp only [cells, List.mem_flatMap, List.mem_map]
  exact ⟨p.1, List.mem_finRange _, p.2, List.mem_finRange _, rfl⟩

namespace Grid

variable {α : Type} {n : Nat}

def value (g : Grid α n) (r c : Fin n) : α := (g.rows.get r).get c

instance : CoeFun (Grid α n) (fun _ ↦ Fin n → Fin n → α) := ⟨Grid.value⟩

/-- The grid with given entries; each is computed once. -/
def ofFn (f : Fin n → Fin n → α) : Grid α n :=
  ⟨Vector.ofFn fun r ↦ Vector.ofFn fun c ↦ f r c⟩

@[simp] theorem ofFn_value (f : Fin n → Fin n → α) (r c : Fin n) : ofFn f r c = f r c := by
  simp [ofFn, Grid.value]

@[ext] theorem ext {g h : Grid α n} (e : ∀ r c, g r c = h r c) : g = h := by
  rcases g with ⟨g⟩
  rcases h with ⟨h⟩
  congr
  exact Table.ext_get fun r ↦ Table.ext_get fun c ↦ e r c

def row (g : Grid α n) (r : Fin n) : List α := (List.finRange n).map fun c ↦ g r c

def col (g : Grid α n) (c : Fin n) : List α := (List.finRange n).map fun r ↦ g r c

def toLists (g : Grid α n) : List (List α) := (List.finRange n).map g.row

/-- As many rows as each row has entries. -/
def Square (n : Nat) (rows : List (List α)) : Prop :=
  rows.length = n ∧ ∀ vs ∈ rows, vs.length = n

instance (n : Nat) (rows : List (List α)) : Decidable (Square n rows) :=
  inferInstanceAs (Decidable (_ ∧ _))

def ofLists (rows : List (List α)) (h : Square n rows) : Grid α n :=
  ⟨⟨(rows.attach.map fun vs ↦ ⟨vs.1.toArray, by simpa using h.2 vs.1 vs.2⟩).toArray,
    by simpa using h.1⟩⟩

def ofLists? (n : Nat) (rows : List (List α)) : Option (Grid α n) :=
  if h : Square n rows then some (ofLists rows h) else none

theorem ofLists_value (rows : List (List α)) (h : Square n rows) (r c : Fin n) :
    (rows[r.1]?.bind fun vs ↦ vs[c.1]?) = some (ofLists rows h r c) := by
  have hr : r.1 < rows.length := by have := h.1; omega
  have hc : c.1 < rows[r.1].length := by rw [h.2 _ (List.getElem_mem hr)]; exact c.2
  simp [ofLists, Grid.value, Table.get_eq_getElem, hr, hc]

theorem toLists_ofLists (rows : List (List α)) (h : Square n rows) :
    (ofLists rows h).toLists = rows := by
  refine List.ext_getElem (by simp [toLists, h.1]) fun i hi hj ↦ ?_
  have hl : rows[i].length = n := h.2 _ (List.getElem_mem _)
  refine List.ext_getElem (by simp [toLists, row, hl]) fun j hj₁ hj₂ ↦ ?_
  simp [toLists, row, ofLists, Grid.value, Table.get_eq_getElem]

theorem square_toLists (g : Grid α n) : Square n g.toLists := by simp [Square, toLists, row]

theorem ofLists_toLists (g : Grid α n) : ofLists g.toLists g.square_toLists = g := by
  ext r c
  have h := ofLists_value g.toLists g.square_toLists r c
  simpa [toLists, row] using h.symm

end Grid

end LinearAssignment
