import LinearAssignment.Grid

/-!
Matchings between the rows and the columns of a grid, kept as two tables: the column of each row
and the row of each column. `Matching.Consistent` says that the tables agree.
-/

namespace LinearAssignment

@[ext] structure Matching (n : Nat) where
  colOf : Vector (Option Nat) n
  rowOf : Vector (Option Nat) n
deriving DecidableEq

namespace Matching

variable {n : Nat}

def empty : Matching n := ⟨Vector.replicate n none, Vector.replicate n none⟩

/-- Each table is the inverse of the other, and all partners are positions of the grid. -/
structure Consistent (m : Matching n) : Prop where
  col_lt (r : Fin n) (c : Nat) (h : m.colOf.get r = some c) : c < n
  row_lt (c : Fin n) (r : Nat) (h : m.rowOf.get c = some r) : r < n
  agree (r c : Fin n) : m.colOf.get r = some c.val ↔ m.rowOf.get c = some r.val

theorem consistent_empty : (empty : Matching n).Consistent := by
  constructor <;> simp [empty]

def link (m : Matching n) (row col : Nat) : Matching n :=
  ⟨m.colOf.setIfInBounds row (some col), m.rowOf.setIfInBounds col (some row)⟩

/-- Clears an entry of a table if it holds a given partner. -/
def clear (table : Vector (Option Nat) n) (i x : Nat) : Vector (Option Nat) n :=
  if table[i]? = some (some x) then table.setIfInBounds i none else table

theorem get_clear (table : Vector (Option Nat) n) (i x : Nat) (j : Fin n) :
    (clear table i x).get j =
      if i = j ∧ table.get j = some x then none else table.get j := by
  unfold clear
  by_cases h : i = j
  · subst h
    rw [Table.getElem?_eq_get]
    by_cases hx : table.get j = some x <;> simp [hx, Table.get_setIfInBounds]
  · split <;> simp [h, Table.get_setIfInBounds]

/-- Takes a pair out of each table that holds it. -/
def unlink (m : Matching n) (row col : Nat) : Matching n :=
  ⟨clear m.colOf row col, clear m.rowOf col row⟩

theorem colOf_link (m : Matching n) (r c : Nat) (i : Fin n) :
    (m.link r c).colOf.get i = if r = i then some c else m.colOf.get i := by
  simp [link, Table.get_setIfInBounds]

theorem rowOf_link (m : Matching n) (r c : Nat) (j : Fin n) :
    (m.link r c).rowOf.get j = if c = j then some r else m.rowOf.get j := by
  simp [link, Table.get_setIfInBounds]

theorem colOf_unlink (m : Matching n) (r c : Nat) (i : Fin n) :
    (m.unlink r c).colOf.get i = if r = i ∧ m.colOf.get i = some c then none else m.colOf.get i :=
  get_clear _ _ _ _

theorem rowOf_unlink (m : Matching n) (r c : Nat) (j : Fin n) :
    (m.unlink r c).rowOf.get j = if c = j ∧ m.rowOf.get j = some r then none else m.rowOf.get j :=
  get_clear _ _ _ _

def size (m : Matching n) : Nat := m.rowOf.toList.countP Option.isSome

/-- Pairs are ordered by row, then by column. -/
def PairLe (p q : Nat × Nat) : Prop := p.1 < q.1 ∨ p.1 = q.1 ∧ p.2 ≤ q.2

instance (p q : Nat × Nat) : Decidable (PairLe p q) := inferInstanceAs (Decidable (_ ∨ _ ∧ _))

/-- Puts a pair in front of the first that it does not exceed. -/
def insertPair (p : Nat × Nat) : List (Nat × Nat) → List (Nat × Nat)
  | [] => [p]
  | q :: rest => if PairLe p q then p :: q :: rest else q :: insertPair p rest

def pairsByCol (m : Matching n) : List (Nat × Nat) :=
  (List.finRange n).filterMap fun c ↦ (m.rowOf.get c).map fun r ↦ (r, c.val)

/-- The pairs of the column table, in order. -/
def pairs (m : Matching n) : List (Nat × Nat) := m.pairsByCol.foldr insertPair []

theorem perm_insertPair (p : Nat × Nat) (ps : List (Nat × Nat)) :
    (insertPair p ps).Perm (p :: ps) := by
  induction ps with
  | nil => exact .refl _
  | cons q ps ih =>
    rw [insertPair]
    split
    · exact .refl _
    · exact (ih.cons q).trans (.swap p q ps)

theorem perm_pairs (m : Matching n) : m.pairs.Perm m.pairsByCol := by
  rw [pairs]
  induction m.pairsByCol with
  | nil => exact .refl _
  | cons p ps ih => exact (perm_insertPair p _).trans (ih.cons p)

end Matching

end LinearAssignment
