/-!
Joining texts with a separator.
-/

namespace LinearAssignment.Text

def join (sep : Char) (parts : List (List Char)) : List Char := List.intercalate [sep] parts

theorem join_nil (sep : Char) : join sep [] = [] := rfl

theorem join_singleton (sep : Char) (p : List Char) : join sep [p] = p := by
  simp [join, List.intercalate]

theorem join_cons_cons (sep : Char) (p q : List Char) (rest : List (List Char)) :
    join sep (p :: q :: rest) = p ++ sep :: join sep (q :: rest) := by
  simp [join, List.intercalate]

theorem join_cons (sep : Char) (p : List Char) (rest : List (List Char)) :
    join sep (p :: rest) = p ++ rest.flatMap (sep :: ·) := by
  induction rest generalizing p with
  | nil => rw [join_singleton]; exact (List.append_nil p).symm
  | cons q rest ih => rw [join_cons_cons, ih q]; rfl

end LinearAssignment.Text
