import LinearAssignment.Chain
import Mathlib.Tactic.Common

/-!
Flipping a chain in a matching.

A pair is in the flipped matching if it enters with the chain, or if it was there before and does
not leave. The tables still agree if no line is entered twice and whatever a line was matched to
leaves when the line is entered.
-/

namespace LinearAssignment

def Link.transpose : Link → Link
  | .enter r c => .enter c r
  | .leave r c => .leave c r

theorem Link.transpose_mem_map {l : Link} {chain : Chain} :
    l.transpose ∈ chain.map transpose ↔ l ∈ chain := by
  refine ⟨fun h ↦ ?_, List.mem_map_of_mem⟩
  obtain ⟨l', hl', e⟩ := List.mem_map.mp h
  cases l <;> cases l' <;> cases e <;> exact hl'

namespace Matching

variable {n : ℕ} {m : Matching n} {chain : Chain}

def transpose (m : Matching n) : Matching n := ⟨m.rowOf, m.colOf⟩

theorem release_transpose (m : Matching n) (l : Link) :
    m.transpose.release l.transpose = (m.release l).transpose := by cases l <;> rfl

theorem adopt_transpose (m : Matching n) (l : Link) :
    m.transpose.adopt l.transpose = (m.adopt l).transpose := by cases l <;> rfl

theorem foldl_release_transpose (m : Matching n) (chain : Chain) :
    (chain.map Link.transpose).foldl release m.transpose = (chain.foldl release m).transpose := by
  induction chain generalizing m with
  | nil => rfl
  | cons l chain ih =>
    rw [List.map_cons, List.foldl_cons, List.foldl_cons, release_transpose, ih]

theorem foldl_adopt_transpose (m : Matching n) (chain : Chain) :
    (chain.map Link.transpose).foldl adopt m.transpose = (chain.foldl adopt m).transpose := by
  induction chain generalizing m with
  | nil => rfl
  | cons l chain ih =>
    rw [List.map_cons, List.foldl_cons, List.foldl_cons, adopt_transpose, ih]

theorem flip_transpose (m : Matching n) (chain : Chain) :
    m.transpose.flip (chain.map Link.transpose) = (m.flip chain).transpose := by
  rw [flip, flip, foldl_release_transpose, foldl_adopt_transpose]

theorem colOf_release (r : Fin n) (c : ℕ) :
    (chain.foldl release m).colOf.get r = some c ↔
      m.colOf.get r = some c ∧ Link.leave r c ∉ chain := by
  induction chain generalizing m with
  | nil => simp
  | cons l chain ih =>
    rw [List.foldl_cons, ih]
    cases l with
    | enter i j => simp [release]
    | leave i j =>
      rw [release, colOf_unlink]
      by_cases h : m.colOf.get r = some c
      · by_cases hi : i = r <;> by_cases hj : j = c <;> simp [*, eq_comm]
      · split_ifs <;> simp [h]

theorem colOf_adopt (hu : ∀ r c c', Link.enter r c ∈ chain → Link.enter r c' ∈ chain → c = c')
    (r : Fin n) (c : ℕ) :
    (chain.foldl adopt m).colOf.get r = some c ↔ Link.enter r c ∈ chain ∨
      m.colOf.get r = some c ∧ ∀ c', Link.enter r c' ∉ chain := by
  induction chain generalizing m with
  | nil => simp
  | cons l chain ih =>
    rw [List.foldl_cons, ih fun r c c' h h' ↦
      hu r c c' (List.mem_cons_of_mem _ h) (List.mem_cons_of_mem _ h')]
    cases l with
    | leave i j => simp [adopt]
    | enter i j =>
      rw [adopt, colOf_link]
      by_cases hi : i = r
      · subst hi
        -- A later link of the same row has the same column.
        have hj (c' : ℕ) (h : Link.enter r c' ∈ chain) : c' = j :=
          hu r c' j (List.mem_cons_of_mem _ h) List.mem_cons_self
        rw [if_pos rfl]
        constructor
        · rintro (h | ⟨h, -⟩)
          · exact .inl (List.mem_cons_of_mem _ h)
          · cases h
            exact .inl List.mem_cons_self
        · rintro (h | ⟨-, h⟩)
          · obtain rfl : c = j := (List.mem_cons.mp h).elim (fun e ↦ by cases e; rfl) (hj c)
            by_cases hmem : Link.enter r c ∈ chain
            · exact .inl hmem
            · exact .inr ⟨rfl, fun c' h ↦ hmem (hj c' h ▸ h)⟩
          · exact absurd List.mem_cons_self (h j)
      · have hne (c' : ℕ) : Link.enter r c' ≠ .enter i j := by
          rintro e
          injection e with e
          exact hi e.symm
        simp [hi, hne]

end Matching

namespace Chain

/-- What makes a chain fit a matching: it enters no line twice, and whatever an entered line was
matched to leaves. -/
structure Fits {n : ℕ} (m : Matching n) (chain : Chain) : Prop where
  lt (r c : ℕ) (h : Link.enter r c ∈ chain) : r < n ∧ c < n
  col_unique (r c c' : ℕ) (h : Link.enter r c ∈ chain) (h' : Link.enter r c' ∈ chain) : c = c'
  row_unique (r r' c : ℕ) (h : Link.enter r c ∈ chain) (h' : Link.enter r' c ∈ chain) : r = r'
  col_leaves (r : Fin n) (c c' : ℕ) (h : Link.enter r c ∈ chain) (h' : m.colOf.get r = some c') :
    Link.leave r c' ∈ chain
  row_leaves (r r' : ℕ) (c : Fin n) (h : Link.enter r c ∈ chain) (h' : m.rowOf.get c = some r') :
    Link.leave r' c ∈ chain

end Chain

namespace Matching

variable {n : ℕ} {m : Matching n} {chain : Chain}

theorem transpose_fits (h : chain.Fits m) :
    Chain.Fits m.transpose (chain.map Link.transpose) where
  lt r c hr := (h.lt c r (Link.transpose_mem_map.mp hr)).symm
  col_unique r c c' hr hr' :=
    h.row_unique c c' r (Link.transpose_mem_map.mp hr) (Link.transpose_mem_map.mp hr')
  row_unique r r' c hr hr' :=
    h.col_unique c r r' (Link.transpose_mem_map.mp hr) (Link.transpose_mem_map.mp hr')
  col_leaves r c c' hr hr' :=
    Link.transpose_mem_map.mpr (h.row_leaves c c' r (Link.transpose_mem_map.mp hr) hr')
  row_leaves r r' c hr hr' :=
    Link.transpose_mem_map.mpr (h.col_leaves c r r' (Link.transpose_mem_map.mp hr) hr')

theorem colOf_flip (h : chain.Fits m) (r : Fin n) (c : ℕ) :
    (m.flip chain).colOf.get r = some c ↔ Link.enter r c ∈ chain ∨
      m.colOf.get r = some c ∧ Link.leave r c ∉ chain := by
  rw [flip, colOf_adopt h.col_unique, colOf_release]
  refine or_congr_right (and_iff_left_of_imp ?_)
  rintro ⟨hc, hl⟩ c' hc'
  exact hl (h.col_leaves r c' c hc' hc)

theorem rowOf_flip (h : chain.Fits m) (c : Fin n) (r : ℕ) :
    (m.flip chain).rowOf.get c = some r ↔ Link.enter r c ∈ chain ∨
      m.rowOf.get c = some r ∧ Link.leave r c ∉ chain := by
  have ht := colOf_flip (transpose_fits h) c r
  rw [flip_transpose] at ht
  exact ht.trans (or_congr (Link.transpose_mem_map (l := .enter r c))
    (and_congr_right' (not_congr (Link.transpose_mem_map (l := .leave r c)))))

theorem Consistent.flip (hm : m.Consistent) (h : chain.Fits m) : (m.flip chain).Consistent where
  col_lt r c hc := by
    rcases (colOf_flip h r c).mp hc with hc | ⟨hc, -⟩
    · exact (h.lt r c hc).2
    · exact hm.col_lt r c hc
  row_lt c r hr := by
    rcases (rowOf_flip h c r).mp hr with hr | ⟨hr, -⟩
    · exact (h.lt r c hr).1
    · exact hm.row_lt c r hr
  agree r c := by rw [colOf_flip h, rowOf_flip h, hm.agree]

end Matching

end LinearAssignment
