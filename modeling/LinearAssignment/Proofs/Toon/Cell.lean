import LinearAssignment.Proofs.Toon.Cursor
import LinearAssignment.Toon.Section

/-!
Cells of written rows. A row is read cell by cell, each from a token up to a comma or the line end.
-/

namespace LinearAssignment.Toon.Cell

open Scalar (IsAtom)
open Token (LineEnds Reads)

variable {cs rest : List Char} {t : Token} {v r : Scalar} {vs rs : List Scalar}

/-- The end of a cell: a comma or a line end, or the end of the document. -/
def Ends (rest : List Char) : Prop := rest.head?.all (isEnd (some ',')) = true

theorem ends_of_lineEnds (h : LineEnds rest) : Ends rest := by
  cases rest with
  | nil => rfl
  | cons c rest =>
    obtain rfl : c = '\n' := by simpa [LineEnds] using h
    rfl

theorem Ends.token (h : Ends rest) : Token.Ends (some ',') rest := by
  cases rest with
  | nil => exact Token.ends_nil
  | cons c rest =>
    have hc : isEnd (some ',') c = true := h
    simp only [isEnd, Bool.or_eq_true, decide_eq_true_eq, Option.some_inj] at hc
    rcases hc with rfl | rfl <;> exact Token.ends_cons.mpr rfl

theorem scalarWith?_nil (t : Token) : t.scalarWith? [] = t.scalar? := rfl

/-- A token of a number or of null stands at the beginning of a cell. -/
theorem exists_head (h : Reads (some ',') cs t rest) (ht : t.scalar? = some r) :
    ∃ c ds, Text.skipSpaces cs = c :: ds ∧ isEnd (some ',') c = false := by
  unfold Token.Reads at h
  cases hs : Text.skipSpaces cs with
  | nil => rw [hs] at h; cases h
  | cons c ds =>
    refine ⟨c, ds, rfl, ?_⟩
    rw [hs] at h
    have hline : c ≠ '\n' := by rintro rfl; cases h
    have hcomma : ',' ≠ c := by rintro rfl; cases h; cases ht
    simp [isEnd, hline, hcomma]

theorem exists_read? (h : Reads (some ',') cs t rest) (ht : t.scalar? = some r)
    (hrest : Ends rest) : ∃ hr, read? (some ',') cs = some (r, ⟨rest, hr⟩) := by
  obtain ⟨c, ds, hs, hc⟩ := exists_head h ht
  obtain ⟨hr, hread⟩ := h.read?
  have hstop : Text.Stops (!isEnd (some ',') ·) rest := by
    cases rest with
    | nil => exact Text.stops_nil
    | cons d rest => exact Text.stops_cons.mpr (by simpa [Ends] using hrest)
  have htail := Text.takeWhile_of_stops hstop
  have hleft := Text.dropWhile_of_stops hstop
  rw [read?, if_neg (by simp [hs, hc]), hread, Option.bind_eq_bind, Option.bind_some]
  dsimp only
  rw [htail, scalarWith?_nil, ht]
  exact ⟨Nat.le_of_lt hr, by simp [hleft]⟩

theorem reads_of_isAtom (h : IsAtom v r) (hrest : Ends rest) :
    ∃ t, Reads (some ',') (v.write ++ rest) t rest ∧ t.scalar? = some r := by
  obtain ⟨t, ht, hr⟩ := h.lexes
  exact ⟨t, ht _ (.inr rfl) rest hrest.token, hr⟩

theorem writeCells_singleton (v : Scalar) : Section.writeCells [v] = v.write :=
  Text.join_singleton ..

theorem writeCells_cons (v w : Scalar) (vs : List Scalar) :
    Section.writeCells (v :: w :: vs) = v.write ++ ',' :: Section.writeCells (w :: vs) :=
  Text.join_cons_cons ..

/-- All cells of a line, behind spaces. -/
theorem exists_readMany? (hv : IsAtom v r) (h : List.Forall₂ IsAtom vs rs) (hrest : LineEnds rest)
    (hcs : Text.skipSpaces cs = Text.skipSpaces (Section.writeCells (v :: vs) ++ rest)) :
    ∃ hr, readMany? (some ',') (vs.length + 1) cs = some (r :: rs, ⟨rest, hr⟩) := by
  -- The last cell is read otherwise than those before it, so the induction is on the others.
  induction vs generalizing v r rs cs with
  | nil =>
    obtain rfl := List.forall₂_nil_left_iff.mp h
    obtain ⟨t, ht, hr⟩ := reads_of_isAtom hv (ends_of_lineEnds hrest)
    rw [writeCells_singleton] at hcs
    obtain ⟨h₁, hread⟩ := exists_read? (ht.congr hcs) hr (ends_of_lineEnds hrest)
    change ∃ hr, Option.bind (read? (some ',') cs) _ = _
    rw [hread]
    exact ⟨h₁, rfl⟩
  | cons w vs ih =>
    obtain ⟨r', rs, hw, hvs, rfl⟩ := List.forall₂_cons_left_iff.mp h
    obtain ⟨t, ht, hr⟩ := reads_of_isAtom hv
      (show Ends (',' :: (Section.writeCells (w :: vs) ++ rest)) from rfl)
    rw [writeCells_cons, List.append_assoc, List.cons_append] at hcs
    obtain ⟨h₁, hread⟩ := exists_read? (ht.congr hcs) hr rfl
    obtain ⟨h₂, hmore⟩ := ih hw hvs rfl
    change ∃ hr, Option.bind (read? (some ',') cs) _ = _
    rw [hread, Option.bind_some]
    dsimp only
    rw [if_pos rfl, hmore]
    exact ⟨Nat.le_trans h₂ (Nat.le_of_succ_le h₁), rfl⟩

end LinearAssignment.Toon.Cell
