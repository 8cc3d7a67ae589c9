import LinearAssignment.Proofs.Toon.Cell
import LinearAssignment.Proofs.Toon.Header
import LinearAssignment.Toon.Reader

/-!
Written rows, as items of a list and as rows of a table, are read as the scalars of their cells.
-/

namespace LinearAssignment.Toon

open Cursor (IsAbove IsAt)
open Scalar (IsAtom)

variable {α β : Type} {n : ℕ} {c : Cursor} {ls : List (List Char)} {v r : Scalar}
  {vs rs : List Scalar}

/-- A reading of `v` that ends at a place with the property `P`. -/
def Yields (o : Option (Reading α n)) (v : α) (P : Cursor → Prop) : Prop :=
  ∃ r, o = some r ∧ r.value = v ∧ P r.next

theorem Yields.imp {o : Option (Reading α n)} {v : α} {P Q : Cursor → Prop} (h : Yields o v P)
    (hPQ : ∀ c, P c → Q c) : Yields o v Q := by
  obtain ⟨r, ho, hv, hP⟩ := h
  exact ⟨r, ho, hv, hPQ _ hP⟩

/-! ### Lists by their headers -/

section

variable {c₁ c₂ : Cursor} {h₁ : c₁.remaining < c.remaining} {h₂ : c₂.remaining ≤ c₁.remaining}
  {k indent : ℕ} {d : Char} {names : List String} {items : List Value} {P : Cursor → Prop}
  (hi : indent ≤ greatestIndent)
include hi

theorem yields_readList?_empty (hh : c.header? = some (⟨0, d, none⟩, ⟨c₁, h₁⟩)) (hP : P c₁) :
    Yields (readList? false indent c) (.list []) P := by
  rw [readList?, if_neg (not_lt.mpr hi), hh]
  exact ⟨_, rfl, rfl, hP⟩

theorem yields_readList?_inline (hh : c.header? = some (⟨k + 1, d, none⟩, ⟨c₁, h₁⟩))
    (hb : c₁.below? = none) (hr : Yields (readInline? (indent + 2) (k + 1) c₁) items P) :
    Yields (readList? false indent c) (.list items) P := by
  obtain ⟨r, hr, rfl, hP⟩ := hr
  rw [readList?, if_neg (not_lt.mpr hi), hh]
  simp only [Option.bind_eq_bind, Option.bind_some, Nat.succ_ne_zero, hb, Option.isSome_none,
    Bool.false_eq_true, if_false, hr]
  exact ⟨_, rfl, rfl, hP⟩

theorem yields_readList?_items (hh : c.header? = some (⟨k + 1, d, none⟩, ⟨c₁, h₁⟩))
    (hb : c₁.below?.isSome = true) (hs : c₁.skipBlanks? = some ⟨c₂, h₂⟩)
    (hr : Yields (readItems? (indent + 2) (k + 1) c₂) items P) :
    Yields (readList? false indent c) (.list items) P := by
  obtain ⟨r, hr, rfl, hP⟩ := hr
  rw [readList?, if_neg (not_lt.mpr hi), hh]
  simp only [Option.bind_eq_bind, Option.bind_some, Nat.succ_ne_zero, hb, if_true, if_false,
    Bool.false_eq_true, hs, hr]
  exact ⟨_, rfl, rfl, hP⟩

theorem yields_readList?_table (hh : c.header? = some (⟨k, d, some names⟩, ⟨c₁, h₁⟩))
    (hr : Yields (readTable? (indent + 2) (indent + 2) ⟨k, d, some names⟩ names c₁) (.list items)
      P) : Yields (readList? false indent c) (.list items) P := by
  obtain ⟨r, hr, hv, hP⟩ := hr
  rw [readList?, if_neg (not_lt.mpr hi), hh]
  simp only [Option.bind_eq_bind, Option.bind_some, Bool.false_eq_true, if_false, hr]
  exact ⟨_, rfl, hv, hP⟩

end

/-! ### Cells on one line -/

/-- A cell at a place, and its token. -/
theorem exists_cell? (hv : IsAtom v r) (hd : c.delimiter = some ',') {rest : List Char}
    (hrest : Cell.Ends rest)
    (htext : Text.skipSpaces c.text = Text.skipSpaces (v.write ++ rest)) :
    (∃ t d, c.token? = some (t, d) ∧ t.scalar? = some r) ∧
      ∃ hr, c.cell? = some (r, ⟨⟨c.indent, rest, some ','⟩, hr⟩) := by
  obtain ⟨t, ht, hr⟩ := Cell.reads_of_isAtom hv hrest
  have hread := ht.congr htext
  obtain ⟨h₁, hcell⟩ := Cell.exists_read? hread hr hrest
  obtain ⟨i, text, delimiter⟩ := c
  obtain rfl : delimiter = some ',' := hd
  obtain ⟨h₂, htoken⟩ := Cursor.exists_token? (c := ⟨i, text, some ','⟩) hread
  refine ⟨⟨t, _, htoken, hr⟩, h₁, ?_⟩
  simp only [Cursor.cell?, hcell]
  rfl

theorem yields_readInline? (hv : IsAtom v r) (h : List.Forall₂ IsAtom vs rs)
    (hd : c.delimiter = some ',')
    (htext : Text.skipSpaces c.text = Text.skipSpaces (Section.writeCells (v :: vs) ++ below ls))
    (indent : ℕ) : Yields (readInline? indent (vs.length + 1) c) ((r :: rs).map .scalar)
      (IsAbove ls (some ',')) := by
  induction vs generalizing v r rs c with
  | nil =>
    obtain rfl := List.forall₂_nil_left_iff.mp h
    rw [Cell.writeCells_singleton] at htext
    obtain ⟨⟨t, d, htoken, hr⟩, h₁, hcell⟩ :=
      exists_cell? hv hd (Cell.ends_of_lineEnds (lineEnds_below ls)) htext
    have hend : (Cursor.mk c.indent (below ls) (some ',')).token? = none :=
      Cursor.token?_eq_none (lineEnds_below ls)
    rw [List.length_nil, readInline?, htoken, hcell]
    cases t with
    | mark | dash | delimiter => cases hr
    | _ =>
      simp only [Option.map_some, Option.bind_eq_bind, Option.bind_some, Reading.upTo,
        Cursor.atDelimiter, hend]
      exact ⟨_, rfl, rfl, rfl, rfl⟩
  | cons w vs ih =>
    obtain ⟨r', rs, hw, hvs, rfl⟩ := List.forall₂_cons_left_iff.mp h
    rw [Cell.writeCells_cons, List.append_assoc, List.cons_append] at htext
    set more := Section.writeCells (w :: vs) ++ below ls with hmore
    obtain ⟨⟨t, d, htoken, hr⟩, h₁, hcell⟩ := exists_cell? hv hd
      (show Cell.Ends (',' :: more) from rfl) htext
    obtain ⟨h₂, hcomma⟩ := Cursor.exists_token? (c := ⟨c.indent, ',' :: more, some ','⟩)
      (Token.reads_comma more)
    obtain ⟨items, hread, hvalue, hend⟩ :=
      ih hw hvs (c := ⟨c.indent, more, some ','⟩) rfl rfl
    rw [List.length_cons, readInline?, htoken, hcell]
    cases t with
    | mark | dash | delimiter => cases hr
    | _ =>
      simp only [Option.map_some, Option.bind_eq_bind, Option.bind_some, Reading.upTo, hcomma,
        hread]
      exact ⟨_, rfl, congrArg (Value.scalar r :: ·) hvalue, hend⟩

/-! ### Rows of a list -/

/-- A row behind the opening bracket of its header. -/
def rowText : List Scalar → List Char
  | [] => Nat.toDigits 10 0 ++ [']', ':']
  | v :: vs => Nat.toDigits 10 (vs.length + 1) ++ [']', ':', ' '] ++ Section.writeCells (v :: vs)

theorem writeRow_eq (vs : List Scalar) :
    Section.writeRow vs = [' ', ' ', '-', ' ', '['] ++ rowText vs := by
  cases vs <;> simp [Section.writeRow, rowText, Section.writeCount]

theorem exists_header? (hd : IsWritten c.delimiter) {k : ℕ} {columns : Option (List String)}
    {cs rest : List Char} (htext : c.text = Nat.toDigits 10 k ++ ']' :: cs)
    (hcolumns : ∃ hr, Header.readColumns? ',' cs = some (columns, ⟨rest, hr⟩)) :
    ∃ hr, c.header? = some (⟨k, ',', columns⟩, ⟨⟨c.indent, rest, some ','⟩, hr⟩) := by
  obtain ⟨hr, hread⟩ := Header.exists_read? hd k hcolumns
  obtain ⟨i, text, delimiter⟩ := c
  obtain rfl : text = _ := htext
  simp only [Cursor.header?, hread]
  exact ⟨hr, rfl⟩

theorem below?_of_filled {l : List Char} {rest : List Char} (hl : IsFilled l)
    (htext : Text.skipSpaces c.text = Text.skipSpaces (l ++ rest)) : c.below? = none := by
  refine Cursor.below?_eq_none ?_
  rw [htext, (indent_append hl rest).2]
  obtain ⟨d, ds, hs, hd, -⟩ := hl
  simpa [hs] using hd

theorem flush_writeCells (hv : IsAtom v r) (vs : List Scalar) :
    IsFlush (Section.writeCells (v :: vs)) := by
  cases vs with
  | nil => exact (Cell.writeCells_singleton v).symm ▸ hv.flush
  | cons w vs => exact (Cell.writeCells_cons v w vs).symm ▸ hv.flush.append _

theorem yields_readList?_row (h : List.Forall₂ IsAtom vs rs) (hd : IsWritten c.delimiter)
    (htext : c.text = rowText vs ++ below ls) {indent : ℕ} (hi : indent ≤ greatestIndent) :
    Yields (readList? false indent c) (.list (rs.map .scalar)) (IsAbove ls (some ',')) := by
  cases h with
  | nil =>
    have htext : c.text = Nat.toDigits 10 0 ++ ']' :: ':' :: below ls := htext
    obtain ⟨hr, hheader⟩ := exists_header? hd htext (Header.exists_readColumns? _)
    exact yields_readList?_empty hi hheader ⟨rfl, rfl⟩
  | @cons v r vs rs hv hvs =>
    have htext : c.text = Nat.toDigits 10 (vs.length + 1) ++
        ']' :: ':' :: ' ' :: (Section.writeCells (v :: vs) ++ below ls) :=
      htext.trans (by simp [rowText])
    obtain ⟨hr, hheader⟩ := exists_header? hd htext (Header.exists_readColumns? _)
    exact yields_readList?_inline hi hheader (below?_of_filled (flush_writeCells hv vs).1 rfl)
      (yields_readInline? hv hvs rfl rfl _)

theorem yields_readItem? (h : List.Forall₂ IsAtom vs rs) (hd : IsWritten c.delimiter)
    (htext : c.text = ' ' :: '[' :: (rowText vs ++ below ls)) {indent : ℕ}
    (hi : indent ≤ greatestIndent) :
    Yields (readItem? indent c) (.list (rs.map .scalar)) (IsAbove ls (some ',')) := by
  have hmark : Token.Reads c.delimiter c.text (.mark '[') (rowText vs ++ below ls) :=
    .congr (by rw [htext]; rfl) (Token.reads_mark _ rfl _)
  obtain ⟨hr, htoken⟩ := Cursor.exists_token? hmark
  obtain ⟨item, hread, hvalue, hend⟩ := yields_readList?_row h
    (c := ⟨c.indent, rowText vs ++ below ls, c.delimiter⟩) hd rfl hi
  rw [readItem?, Cursor.atLineEnd_of_reads hmark, if_neg Bool.false_ne_true, htoken]
  simp only [hread]
  exact ⟨_, rfl, hvalue, hend⟩

theorem filled_writeRow (vs : List Scalar) : IsFilled (Section.writeRow vs) := by
  rw [writeRow_eq]
  exact ⟨'-', _, rfl, by decide, by decide⟩

theorem forall_filled {rows : List (List Scalar)} {f : List Scalar → List Char}
    (hf : ∀ vs ∈ rows, IsFilled (f vs)) (hls : ∀ l ∈ ls, IsFilled l) :
    ∀ l ∈ rows.map f ++ ls, IsFilled l := by
  intro l hl
  rcases List.mem_append.mp hl with hl | hl
  · obtain ⟨vs, hvs, rfl⟩ := List.mem_map.mp hl
    exact hf vs hvs
  · exact hls l hl

/-- Line by line the rows of a list are read as its items. -/
theorem yields_readItems? {rows rows' : List (List Scalar)}
    (h : List.Forall₂ (List.Forall₂ IsAtom) rows rows') (hls : ∀ l ∈ ls, IsFilled l)
    (hc : IsAt (rows.map Section.writeRow ++ ls) (some ',') c) :
    Yields (readItems? 2 rows.length c) (rows'.map fun rs ↦ .list (rs.map .scalar))
      (IsAt ls (some ',')) := by
  induction h generalizing c with
  | nil =>
    obtain ⟨d, hskip, hd⟩ := IsAt.exists_skipBlanks? hls hc
    rw [List.length_nil, readItems?, hskip]
    exact ⟨_, rfl, rfl, hd⟩
  | @cons vs rs rows rows' hvs hrows ih =>
    have hskip := hc.skipSpaces (filled_writeRow vs)
    rw [writeRow_eq] at hskip
    have hdash : Token.Reads c.delimiter c.text .dash
        (' ' :: '[' :: (rowText vs ++ below (rows.map Section.writeRow ++ ls))) :=
      .congr hskip (Token.reads_dash _)
    have hindent : c.indent = 2 := by rw [hc.2.1, writeRow_eq]; rfl
    obtain ⟨hr, htoken⟩ := Cursor.exists_token? hdash
    obtain ⟨item, hitem, hvalue, hend⟩ := yields_readItem? hvs
      (c := ⟨c.indent, ' ' :: '[' :: (rowText vs ++ below (rows.map Section.writeRow ++ ls)),
        c.delimiter⟩) (.inr hc.1) rfl (show 2 ≤ greatestIndent by decide)
    obtain ⟨d, hnext, hd⟩ := hend.exists_next?
      (forall_filled (fun vs _ ↦ filled_writeRow vs) hls)
    obtain ⟨items, hitems, hvalues, hend'⟩ := ih hd
    rw [List.length_cons, readItems?, if_pos hindent, htoken]
    simp only [Option.bind_eq_bind, Option.bind_some, hitem, hnext, hitems]
    exact ⟨_, rfl, congrArg₂ List.cons hvalue hvalues, hend'⟩

/-! ### Rows of a table -/

theorem exists_cells? (hv : IsAtom v r) (h : List.Forall₂ IsAtom vs rs)
    (hd : c.delimiter = some ',')
    (htext : Text.skipSpaces c.text = Text.skipSpaces (Section.writeCells (v :: vs) ++ below ls)) :
    ∃ d, c.cells? (vs.length + 1) = some (r :: rs, d) ∧ IsAbove ls (some ',') d.val := by
  obtain ⟨hr, hread⟩ := Cell.exists_readMany? hv h (lineEnds_below ls) htext
  obtain ⟨i, text, delimiter⟩ := c
  obtain rfl : delimiter = some ',' := hd
  have hend : (Cursor.mk i (below ls) (some ',')).atLineEnd = true :=
    Cursor.atLineEnd_of_lineEnds (lineEnds_below ls)
  simp only [Cursor.cells?, hread, Option.bind_eq_bind, Option.bind_some, hend]
  exact ⟨_, rfl, rfl, rfl⟩

theorem skipSpaces_writeTableRow (vs : List Scalar) (rest : List Char) :
    Text.skipSpaces (Section.writeTableRow vs ++ rest) =
      Text.skipSpaces (Section.writeCells vs ++ rest) := rfl

/-- A table of so many columns, with the scalars that its cells are read as. -/
def IsTable (k : ℕ) : List (List Scalar) → List (List Scalar) → Prop :=
  List.Forall₂ fun vs rs ↦ vs.length = k + 1 ∧ List.Forall₂ IsAtom vs rs

theorem filled_writeTableRow {k : ℕ} (hk : vs.length = k + 1) (h : List.Forall₂ IsAtom vs rs) :
    IsFilled (Section.writeTableRow vs) ∧ indentOf (Section.writeTableRow vs) = 2 := by
  cases h with
  | nil => cases hk
  | @cons v r vs rs hv hvs =>
    obtain ⟨⟨c, ds, hs, hc⟩, hindent⟩ := flush_writeCells hv vs
    exact ⟨⟨c, ds, hs, hc⟩, congrArg (· + 2) hindent⟩

theorem IsTable.filled {k : ℕ} {rows rows' : List (List Scalar)} (h : IsTable k rows rows') :
    ∀ vs ∈ rows, IsFilled (Section.writeTableRow vs) := by
  induction h with
  | nil => exact nofun
  | cons hrow _ ih => exact List.forall_mem_cons.mpr ⟨(filled_writeTableRow hrow.1 hrow.2).1, ih⟩

/-- Line by line the rows of a table are read as objects. -/
theorem yields_readRows? {names : List String} {k : ℕ} (hnames : names.length = k + 1)
    {rows rows' : List (List Scalar)} (h : IsTable k rows rows') (hls : ∀ l ∈ ls, IsFilled l)
    (hc : IsAt (rows.map Section.writeTableRow ++ ls) (some ',') c) :
    Yields (readRows? 2 names rows.length c)
      (rows'.map fun rs ↦ .object (names.zip (rs.map .scalar))) (IsAt ls (some ',')) := by
  induction h generalizing c with
  | nil =>
    obtain ⟨d, hskip, hd⟩ := IsAt.exists_skipBlanks? hls hc
    rw [List.length_nil, readRows?, hskip]
    exact ⟨_, rfl, rfl, hd⟩
  | @cons vs rs rows rows' hrow hrows ih =>
    obtain ⟨hlength, hvs⟩ := hrow
    obtain ⟨hfill, hindent⟩ := filled_writeTableRow hlength hvs
    have hskip := hc.skipSpaces hfill
    have hend := hc.atLineEnd hfill
    have hwidth : c.indent = 2 := hc.2.1.trans hindent
    cases hvs with
    | nil => cases hlength
    | @cons v r vs rs hv hvs =>
      obtain rfl : vs.length = k := Nat.succ_inj.mp hlength
      obtain ⟨d, hcells, habove⟩ := exists_cells? hv hvs hc.1
        (hskip.trans (skipSpaces_writeTableRow _ _))
      obtain ⟨e, hnext, he⟩ := habove.exists_next? (forall_filled (IsTable.filled hrows) hls)
      obtain ⟨items, hitems, hvalues, hbelow⟩ := ih he
      rw [List.length_cons, readRows?, if_pos ⟨hwidth, hend⟩, hnames, hcells]
      simp only [Option.bind_eq_bind, Option.bind_some, hnext, hitems]
      exact ⟨_, rfl, congrArg (Value.object _ :: ·) hvalues, hbelow⟩

theorem yields_readTable? {names : List String} {k : ℕ} (hnames : names.length = k + 1)
    {rows rows' : List (List Scalar)} (hne : rows ≠ []) (h : IsTable k rows rows')
    (hls : ∀ l ∈ ls, IsFilled l) (htop : ls.head?.all (indentOf · = 0) = true)
    (hc : IsAbove (rows.map Section.writeTableRow ++ ls) (some ',') c) (d : Char) :
    Yields (readTable? 2 2 ⟨rows.length, d, some names⟩ names c)
      (.list (rows'.map fun rs ↦ .object (names.zip (rs.map .scalar)))) (IsAt ls (some ',')) := by
  have hsome : c.below?.isSome = true := by
    obtain ⟨vs, rows, rfl⟩ := List.exists_cons_of_ne_nil hne
    obtain ⟨hr, hbelow⟩ := Cursor.exists_below? hc.2
    rw [hbelow]
    rfl
  obtain ⟨⟨c₁, h₁⟩, hskip, hc₁⟩ := hc.exists_skipBlanks? (forall_filled h.filled hls)
  obtain ⟨items, hitems, hvalues, hend⟩ := yields_readRows? hnames h hls hc₁
  have hbehind : items.next.atLineEnd = true ∨ items.next.indent ≠ 2 := by
    cases ls with
    | nil => exact .inl (Cursor.atLineEnd_of_lineEnds (by rw [hend.2]; rfl))
    | cons l ls =>
      have hl : indentOf l = 0 := by simpa using htop
      exact .inr (by rw [hend.2.1, hl]; decide)
  rw [readTable?, if_pos hsome, hskip]
  simp only [Option.bind_eq_bind, Option.bind_some, hitems]
  rw [if_pos (.inr (hbehind.imp_right .inl))]
  exact ⟨_, rfl, congrArg Value.list hvalues, hend⟩

end LinearAssignment.Toon
