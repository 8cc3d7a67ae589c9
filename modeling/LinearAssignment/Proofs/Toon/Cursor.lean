import LinearAssignment.Proofs.Toon.Token
import LinearAssignment.Toon.Cursor

/-!
Places in written documents: at the beginning of a line, and at the end of the line above.
-/

namespace LinearAssignment.Toon

open Token (LineEnds)

variable {delimiter : Option Char} {cs rest : List Char} {l : List Char} {ls : List (List Char)}
  {t : Token}

/-- The lines of a document, each behind the end of the line above. -/
def below (ls : List (List Char)) : List Char := ls.flatMap ('\n' :: ·)

theorem lineEnds_below (ls : List (List Char)) : LineEnds (below ls) := by
  cases ls <;> rfl

theorem indent_append (h : IsFilled l) (rest : List Char) : indentOf (l ++ rest) = indentOf l ∧
    Text.skipSpaces (l ++ rest) = Text.skipSpaces l ++ rest := by
  obtain ⟨c, cs, hl, -⟩ := h
  have hrun : ∀ d ∈ l.takeWhile (· == ' '), (d == ' ') = true := fun d ↦ List.mem_takeWhile_imp
  have hstop : Text.Stops (· == ' ') (Text.skipSpaces l ++ rest) := by
    obtain ⟨d, ds, hd, hne⟩ := (Text.dropWhile_cases (· == ' ') l).resolve_left fun h ↦
      List.cons_ne_nil c cs (hl.symm.trans h)
    rw [Text.skipSpaces, hd]
    exact Text.stops_cons.mpr hne
  have happend : l.takeWhile (· == ' ') ++ (Text.skipSpaces l ++ rest) = l ++ rest := by
    rw [← List.append_assoc, Text.skipSpaces, List.takeWhile_append_dropWhile]
  rw [← happend]
  exact ⟨congrArg List.length (Text.takeWhile_run hrun hstop), Text.dropWhile_run hrun hstop⟩

theorem IsFilled.append (h : IsFilled l) (rest : List Char) : IsFilled (l ++ rest) := by
  have hskip := (indent_append h rest).2
  obtain ⟨c, cs, hl, hc⟩ := h
  exact ⟨c, cs ++ rest, by rw [hskip, hl, List.cons_append], hc⟩

theorem IsFlush.append (h : IsFlush l) (rest : List Char) : IsFlush (l ++ rest) :=
  ⟨h.1.append rest, (indent_append h.1 rest).1.trans h.2⟩

namespace Cursor

variable {c : Cursor}

/-- At the beginning of the first of these lines, behind its indent. -/
def IsAt (ls : List (List Char)) (delimiter : Option Char) (c : Cursor) : Prop :=
  c.delimiter = delimiter ∧ match ls with
  | [] => c.text = []
  | l :: ls => c.indent = indentOf l ∧ c.text = Text.skipSpaces l ++ below ls

/-- At the end of the line above these lines. -/
def IsAbove (ls : List (List Char)) (delimiter : Option Char) (c : Cursor) : Prop :=
  c.delimiter = delimiter ∧ c.text = below ls

theorem exists_ofLine? (delimiter : Option Char) (h : IsFilled l) (hcs : cs = l ++ below ls) :
    ∃ d, ofLine? delimiter cs = some d ∧ IsAt (l :: ls) delimiter d.val := by
  subst hcs
  obtain ⟨hindent, hskip⟩ := indent_append h (below ls)
  have htab : ¬(Text.skipSpaces (l ++ below ls)).head? = some '\t' := by
    rw [hskip]
    obtain ⟨c, cs, hl, -, hc⟩ := h
    simpa [hl] using hc
  rw [ofLine?, if_neg htab]
  exact ⟨_, rfl, rfl, hindent, hskip⟩

theorem dropBlankLines_of_filled {c : Char} {cs' : List Char} (h : Text.skipSpaces cs = c :: cs')
    (hc : c ≠ '\n') (line : List Char) : dropBlankLines line cs = line := by
  induction cs with
  | nil => cases h
  | cons d ds ih =>
    by_cases hd : d = ' '
    · subst hd
      exact ih h
    · obtain ⟨rfl, -⟩ := List.cons_eq_cons.mp ((Token.skipSpaces_cons hd ds).symm.trans h)
      rw [dropBlankLines, if_neg hc, if_neg hd]

theorem dropBlankLines_below (h : IsFilled l) (ls : List (List Char)) (line : List Char) :
    dropBlankLines line (below (l :: ls)) = l ++ below ls := by
  obtain ⟨-, hskip⟩ := indent_append h (below ls)
  obtain ⟨c, cs, hl, hc, -⟩ := h
  rw [hl] at hskip
  exact dropBlankLines_of_filled hskip hc _

/-! ### Tokens at a place -/

theorem exists_token? (h : Token.Reads c.delimiter c.text t rest) :
    ∃ hr, c.token? = some (t, ⟨⟨c.indent, rest, c.delimiter⟩, hr⟩) := by
  obtain ⟨hr, hread⟩ := h.read?
  rw [token?, hread]
  exact ⟨_, rfl⟩

theorem token?_eq_none (h : LineEnds c.text) : c.token? = none := by
  have hscan : Token.scan? c.delimiter (Text.skipSpaces c.text) = none := by
    cases htext : c.text with
    | nil => rfl
    | cons d ds =>
      rw [htext] at h
      obtain rfl : d = '\n' := by simpa [LineEnds] using h
      rfl
  rw [token?, Token.read?_eq_none hscan]
  rfl

theorem atLineEnd_of_reads (h : Token.Reads c.delimiter c.text t rest) : c.atLineEnd = false := by
  unfold Token.Reads at h
  unfold Cursor.atLineEnd
  cases hs : Text.skipSpaces c.text with
  | nil => rw [hs] at h; cases h
  | cons d ds =>
    have hd : d ≠ '\n' := by
      rintro rfl
      rw [hs] at h
      cases h
    simpa using hd

/-! ### Steps from place to place -/

theorem IsAt.skipSpaces (h : IsAt (l :: ls) delimiter c) (hl : IsFilled l) :
    Text.skipSpaces c.text = Text.skipSpaces (l ++ below ls) := by
  rw [h.2.2, ← (indent_append hl (below ls)).2]
  exact List.dropWhile_idempotent ..

theorem IsAt.atLineEnd (h : IsAt (l :: ls) delimiter c) (hl : IsFilled l) :
    c.atLineEnd = false := by
  have hskip := h.skipSpaces hl
  rw [(indent_append hl (below ls)).2] at hskip
  obtain ⟨d, ds, hd, hne, -⟩ := hl
  rw [Cursor.atLineEnd, hskip, hd]
  simpa using hne

theorem atLineEnd_of_lineEnds (h : LineEnds c.text) : c.atLineEnd = true := by
  unfold Cursor.atLineEnd
  cases htext : c.text with
  | nil => rfl
  | cons d ds =>
    rw [htext] at h
    obtain rfl : d = '\n' := by simpa [LineEnds] using h
    rfl

theorem exists_below? (h : c.text = '\n' :: cs) : ∃ hr, c.below? = some ⟨cs, hr⟩ := by
  have hskip : Text.skipSpaces c.text = '\n' :: cs := by rw [h]; rfl
  unfold below?
  split
  · next ds hds =>
    obtain rfl : ds = cs := (List.cons_eq_cons.mp (hds.symm.trans hskip)).2
    exact ⟨by rw [remaining, h]; exact Nat.lt_succ_self _, rfl⟩
  · next hne => exact absurd hskip (hne cs)

theorem below?_eq_none (h : (Text.skipSpaces c.text).head? ≠ some '\n') : c.below? = none := by
  unfold below?
  split
  · next ds hds => exact absurd (by rw [hds]; rfl) h
  · rfl

variable (hls : ∀ l ∈ ls, IsFilled l)
include hls

/-- From above the lines to the first of them, or to the end. -/
theorem IsAbove.exists_skipBlanks? (h : IsAbove ls delimiter c) :
    ∃ d, c.skipBlanks? = some d ∧ IsAt ls delimiter d.val := by
  have hend : c.atLineEnd = true := atLineEnd_of_lineEnds (h.2 ▸ lineEnds_below ls)
  rw [skipBlanks?, if_pos hend]
  cases ls with
  | nil =>
    have hnil : dropBlankLines c.text c.text = [] := by rw [h.2]; rfl
    obtain ⟨d, hd, ht⟩ : ∃ d, ofLine? c.delimiter (dropBlankLines c.text c.text) = some d ∧
        IsAt [] delimiter d.val := by
      rw [hnil]
      exact ⟨_, rfl, h.1, rfl⟩
    rw [hd]
    exact ⟨_, rfl, ht⟩
  | cons l ls =>
    have hl := hls l List.mem_cons_self
    have hdrop : dropBlankLines c.text c.text = l ++ below ls := by
      rw [h.2]
      exact dropBlankLines_below hl ls _
    obtain ⟨d, hd, ht⟩ := exists_ofLine? c.delimiter hl hdrop
    rw [hd]
    exact ⟨_, rfl, h.1 ▸ ht⟩

theorem IsAt.exists_skipBlanks? (h : IsAt ls delimiter c) :
    ∃ d, c.skipBlanks? = some d ∧ IsAt ls delimiter d.val := by
  cases ls with
  | nil => exact IsAbove.exists_skipBlanks? nofun h
  | cons l ls =>
    rw [skipBlanks?, h.atLineEnd (hls l List.mem_cons_self), if_neg Bool.false_ne_true]
    exact ⟨_, rfl, h⟩

theorem IsAbove.exists_next? (h : IsAbove ls delimiter c) :
    ∃ d, c.next? = some d ∧ IsAt ls delimiter d.val := by
  cases ls with
  | nil =>
    have hnone : c.below? = none := below?_eq_none (by rw [h.2]; exact nofun)
    rw [next?, hnone, if_neg (show ¬none.isSome = true from Bool.false_ne_true)]
    exact ⟨_, rfl, h⟩
  | cons l ls =>
    have htext : c.text = '\n' :: (l ++ below ls) := h.2
    obtain ⟨hr, hbelow⟩ := exists_below? htext
    obtain ⟨d, hd, ht⟩ := exists_ofLine? c.delimiter (hls l List.mem_cons_self)
      (Eq.refl (l ++ below ls))
    rw [next?, hbelow, if_pos (show (some _).isSome = true from rfl), down?, hbelow,
      Option.bind_eq_bind, Option.bind_some]
    dsimp only
    rw [hd]
    exact ⟨_, rfl, h.1 ▸ ht⟩

end Cursor

end LinearAssignment.Toon
