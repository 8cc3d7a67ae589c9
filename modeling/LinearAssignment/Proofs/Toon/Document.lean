import LinearAssignment.Proofs.Toon.Row
import LinearAssignment.Proofs.Toon.Text

/-!
Written documents are read section by section, each as a field of one object.
-/

namespace LinearAssignment.Toon

open Cursor (IsAbove IsAt)
open Scalar (IsAtom IsLine)
open Token (IsKey)

variable {c : Cursor} {delimiter : Option Char} {ls : List (List Char)}

namespace Section

def key : Section → String
  | scalar key _ | rows key _ | table key _ _ => key

/-- What stands behind the key on the first line. -/
def opening : Section → List Char
  | scalar _ value => ": ".toList ++ value.write
  | rows _ items => writeCount items.length ++ [':']
  | table _ _ [] => writeCount 0 ++ [':']
  | table _ columns items => writeCount items.length ++ writeColumns columns ++ [':']

/-- The lines below the first. -/
def body : Section → List (List Char)
  | scalar _ _ => []
  | rows _ items => items.map writeRow
  | table _ _ items => items.map writeTableRow

theorem lines_eq (s : Section) : s.lines = (s.key.toList ++ s.opening) :: s.body := by
  cases s with
  | scalar key value => simp [lines, Section.key, opening, body]
  | rows key items => simp [lines, Section.key, opening, body]
  | table key columns items => cases items <;> simp [lines, Section.key, opening, body]

/-- A section is read as a value: the scalar of its text, a list of lists, or a list of objects. -/
inductive ReadsAs : Section → Value → Prop where
  | scalar {key : String} {v r : Scalar} (h : IsLine v r) : ReadsAs (.scalar key v) (.scalar r)
  | rows {key : String} {items items' : List (List Scalar)}
      (h : List.Forall₂ (List.Forall₂ IsAtom) items items') :
      ReadsAs (.rows key items) (.list (items'.map fun rs ↦ .list (rs.map .scalar)))
  | table {key : String} {names : List String} {items items' : List (List Scalar)} {k : ℕ}
      (hnames : Header.areColumns names = true) (hkeys : ∀ name ∈ names, IsKey name)
      (hk : names.length = k + 1) (h : IsTable k items items') :
      ReadsAs (.table key names items)
        (.list (items'.map fun rs ↦ .object (names.zip (rs.map .scalar))))

theorem ReadsAs.filled {s : Section} {v : Value} (h : ReadsAs s v) : ∀ l ∈ s.body, IsFilled l := by
  cases h with
  | scalar h => exact nofun
  | rows h =>
    intro l hl
    obtain ⟨vs, -, rfl⟩ := List.mem_map.mp hl
    exact filled_writeRow vs
  | table _ _ _ h =>
    intro l hl
    obtain ⟨vs, hvs, rfl⟩ := List.mem_map.mp hl
    exact h.filled vs hvs

end Section

/-- Behind a section, at the end of its last line or at the beginning of the next one. -/
def Cursor.IsBefore (ls : List (List Char)) (c : Cursor) : Prop :=
  ∃ delimiter, IsWritten delimiter ∧ (IsAbove ls delimiter c ∨ IsAt ls delimiter c)

theorem Cursor.IsBefore.exists_skipBlanks? (hls : ∀ l ∈ ls, IsFilled l) (h : c.IsBefore ls) :
    ∃ d hd, c.skipBlanks? = some ⟨d, hd⟩ ∧
      ∃ delimiter, IsWritten delimiter ∧ IsAt ls delimiter d := by
  obtain ⟨delimiter, hd, h | h⟩ := h
  · obtain ⟨⟨d, hr⟩, hskip, h⟩ := h.exists_skipBlanks? hls
    exact ⟨d, hr, hskip, delimiter, hd, h⟩
  · obtain ⟨⟨d, hr⟩, hskip, h⟩ := IsAt.exists_skipBlanks? hls h
    exact ⟨d, hr, hskip, delimiter, hd, h⟩

/-! ### Sections -/

theorem yields_readAfterColon? {v r : Scalar} (h : IsLine v r) (hd : IsWritten c.delimiter)
    (htext : c.text = ' ' :: (v.write ++ below ls)) :
    Yields (readAfterColon? false 0 c) (.scalar r) (Cursor.IsBefore ls) := by
  obtain ⟨t, tail, hreads, ht, htail, hr⟩ := h c.delimiter hd (below ls) (lineEnds_below ls)
  have hread : Token.Reads c.delimiter c.text t (tail ++ below ls) :=
    hreads.congr (by rw [htext]; rfl)
  obtain ⟨h₁, htoken⟩ := Cursor.exists_token? hread
  have hrun : ∀ d ∈ tail, decide (d ≠ '\n') = true := fun d hm ↦ decide_eq_true (htail d hm)
  have hstop : Text.Stops (· ≠ '\n') (below ls) := by
    cases ls with
    | nil => exact Text.stops_nil
    | cons l ls => exact Text.stops_cons.mpr rfl
  have htake := Text.takeWhile_run hrun hstop
  have hdrop := Text.dropWhile_run hrun hstop
  rw [readAfterColon?, Cursor.atLineEnd_of_reads hread, if_neg Bool.false_ne_true, htoken]
  cases t with
  | mark | dash | delimiter => cases ht
  | _ =>
    simp only [Token.text?, Option.isSome_some, if_true, htake, hr, Option.map_some]
    exact ⟨_, rfl, rfl, c.delimiter, hd, .inl ⟨rfl, hdrop⟩⟩

theorem yields_readTail?_list {cs : List Char} {v : Value} {P : Cursor → Prop}
    (htext : c.text = '[' :: cs)
    (h : Yields (readList? false 0 ⟨c.indent, cs, c.delimiter⟩) v P) :
    Yields (readTail? false 0 c) v P := by
  have hmark : Token.Reads c.delimiter c.text (.mark '[') cs := htext ▸ Token.reads_mark _ rfl cs
  obtain ⟨h₁, htoken⟩ := Cursor.exists_token? hmark
  obtain ⟨r, hr, hv, hP⟩ := h
  rw [readTail?, htoken]
  simp only [hr]
  exact ⟨_, rfl, hv, hP⟩

theorem yields_readTail?_colon {cs : List Char} {v : Value} {P : Cursor → Prop}
    (htext : c.text = ':' :: cs)
    (h : Yields (readAfterColon? false 0 ⟨c.indent, cs, c.delimiter⟩) v P) :
    Yields (readTail? false 0 c) v P := by
  have hmark : Token.Reads c.delimiter c.text (.mark ':') cs := htext ▸ Token.reads_mark _ rfl cs
  obtain ⟨h₁, htoken⟩ := Cursor.exists_token? hmark
  obtain ⟨r, hr, hv, hP⟩ := h
  rw [readTail?, htoken]
  simp only [hr]
  exact ⟨_, rfl, hv, hP⟩

theorem yields_readList?_rows {items items' : List (List Scalar)}
    (h : List.Forall₂ (List.Forall₂ IsAtom) items items') (hls : ∀ l ∈ ls, IsFilled l)
    (hd : IsWritten c.delimiter) (htext : c.text = Nat.toDigits 10 items.length ++
      ']' :: ':' :: below (items.map Section.writeRow ++ ls)) :
    Yields (readList? false 0 c) (.list (items'.map fun rs ↦ .list (rs.map .scalar)))
      (Cursor.IsBefore ls) := by
  obtain ⟨hr, hheader⟩ := exists_header? hd htext (Header.exists_readColumns? _)
  cases h with
  | nil =>
    -- A list without items ends with the line of its header.
    exact yields_readList?_empty (Nat.zero_le _) hheader ⟨_, .inr rfl, .inl ⟨rfl, rfl⟩⟩
  | @cons vs rs items items' hvs hitems =>
    have habove : IsAbove ((vs :: items).map Section.writeRow ++ ls) (some ',')
        ⟨c.indent, below ((vs :: items).map Section.writeRow ++ ls), some ','⟩ := ⟨rfl, rfl⟩
    obtain ⟨⟨d, h₂⟩, hskip, hat⟩ := habove.exists_skipBlanks?
      (forall_filled (fun vs _ ↦ filled_writeRow vs) hls)
    obtain ⟨hb, hbelow⟩ := Cursor.exists_below? habove.2
    refine yields_readList?_items (Nat.zero_le _) hheader (by rw [hbelow]; rfl) hskip ?_
    exact (yields_readItems? (.cons hvs hitems) hls hat).imp fun e he ↦ ⟨_, .inr rfl, .inr he⟩

theorem yields_readList?_columns {names : List String} {k : ℕ} {items items' : List (List Scalar)}
    (hnames : Header.areColumns names = true) (hkeys : ∀ name ∈ names, IsKey name)
    (hk : names.length = k + 1) (hne : items ≠ []) (h : IsTable k items items')
    (hls : ∀ l ∈ ls, IsFilled l) (htop : ls.head?.all (indentOf · = 0) = true)
    (hd : IsWritten c.delimiter) (htext : c.text = Nat.toDigits 10 items.length ++
      ']' :: (Section.writeColumns names ++ ':' :: below (items.map Section.writeTableRow ++ ls))) :
    Yields (readList? false 0 c)
      (.list (items'.map fun rs ↦ .object (names.zip (rs.map .scalar)))) (Cursor.IsBefore ls) := by
  obtain ⟨hr, hheader⟩ := exists_header? hd htext
    (Header.exists_readColumns?_names hnames hkeys _)
  exact yields_readList?_table (Nat.zero_le _) hheader
    ((yields_readTable? hk hne h hls htop ⟨rfl, rfl⟩ ',').imp fun e he ↦ ⟨_, .inr rfl, .inr he⟩)

theorem yields_readTail? {s : Section} {v : Value} (h : s.ReadsAs v) (hls : ∀ l ∈ ls, IsFilled l)
    (htop : ls.head?.all (indentOf · = 0) = true) (hd : IsWritten c.delimiter)
    (htext : c.text = s.opening ++ below (s.body ++ ls)) :
    Yields (readTail? false 0 c) v (Cursor.IsBefore ls) := by
  cases h with
  | scalar h => exact yields_readTail?_colon htext (yields_readAfterColon? h hd rfl)
  | @rows key items items' h =>
    have hopen : c.text = '[' :: (Nat.toDigits 10 items.length ++
        ']' :: ':' :: below (items.map Section.writeRow ++ ls)) :=
      htext.trans (by simp [Section.opening, Section.body, Section.writeCount])
    exact yields_readTail?_list hopen (yields_readList?_rows h hls hd rfl)
  | @table key names items items' k hnames hkeys hk h =>
    cases h with
    | nil =>
      -- A table without rows is written as a list without items.
      have hopen : c.text = '[' :: (Nat.toDigits 10 0 ++ ']' :: ':' :: below ([] ++ ls)) :=
        htext.trans (by simp [Section.opening, Section.body, Section.writeCount])
      exact yields_readTail?_list hopen (yields_readList?_rows .nil hls hd rfl)
    | @cons vs rs items items' hrow hrows =>
      have hopen : c.text = '[' :: (Nat.toDigits 10 (vs :: items).length ++
          ']' :: (Section.writeColumns names ++
            ':' :: below ((vs :: items).map Section.writeTableRow ++ ls))) :=
        htext.trans (by simp [Section.opening, Section.body, Section.writeCount])
      exact yields_readTail?_list hopen (yields_readList?_columns hnames hkeys hk
        (List.cons_ne_nil _ _) (.cons hrow hrows) hls htop hd rfl)

/-! ### Documents -/

/-- A section under its key. -/
structure Section.ReadsAsField (s : Section) (f : String × Value) : Prop where
  isKey : IsKey s.key
  key : f.1 = s.key
  value : s.ReadsAs f.2

theorem Section.ReadsAsField.flush {s : Section} {f : String × Value} (h : s.ReadsAsField f) :
    IsFlush (s.key.toList ++ s.opening) := h.isKey.1.isFlush.append _

variable {sections : List Section} {fields : List (String × Value)}

theorem filled_lines (h : List.Forall₂ Section.ReadsAsField sections fields) :
    ∀ l ∈ sections.flatMap Section.lines, IsFilled l := by
  induction h with
  | nil => exact nofun
  | @cons s f sections fields hs _ ih =>
    rw [List.flatMap_cons, Section.lines_eq, List.cons_append]
    refine List.forall_mem_cons.mpr ⟨hs.flush.1, fun l hl ↦ ?_⟩
    rcases List.mem_append.mp hl with hl | hl
    · exact hs.value.filled l hl
    · exact ih l hl

theorem head?_lines (h : List.Forall₂ Section.ReadsAsField sections fields) :
    (sections.flatMap Section.lines).head?.all (indentOf · = 0) = true := by
  cases h with
  | nil => rfl
  | cons hs _ =>
    rw [List.flatMap_cons, Section.lines_eq, List.cons_append, List.head?_cons]
    exact decide_eq_true hs.flush.2

theorem Section.exists_opening (s : Section) :
    ∃ cs, s.opening = ':' :: cs ∨ s.opening = '[' :: cs := by
  cases s with
  | scalar key value => exact ⟨_, .inl rfl⟩
  | rows key items => exact ⟨_, .inr rfl⟩
  | table key columns items => cases items <;> exact ⟨_, .inr rfl⟩

/-- The key of a section at the beginning of its first line, and the value behind it. -/
theorem exists_field {s : Section} {f : String × Value} (h : s.ReadsAsField f)
    (hsections : List.Forall₂ Section.ReadsAsField sections fields) (hd : IsWritten delimiter)
    (hc : IsAt ((s :: sections).flatMap Section.lines) delimiter c) :
    c.indent = 0 ∧ c.atLineEnd = false ∧
      ∃ d hd, c.token? = some (.word s.key.toList, ⟨d, hd⟩) ∧
        d.indent = 0 ∧ Token.startsValue d.text = true ∧
        Yields (readTail? false 0 d) f.2
          (Cursor.IsBefore (sections.flatMap Section.lines)) := by
  rw [List.flatMap_cons, Section.lines_eq, List.cons_append] at hc
  set more := below (s.body ++ sections.flatMap Section.lines) with hmore
  have hindent : c.indent = 0 := hc.2.1.trans h.flush.2
  have hskip := hc.skipSpaces h.flush.1
  obtain ⟨cs, hopen⟩ := s.exists_opening
  have hends : Token.Ends c.delimiter (s.opening ++ more) := by
    rcases hopen with hopen | hopen <;> rw [hopen] <;>
      exact Token.ends_cons.mpr (Token.isEnd_of_none rfl)
  have hstarts : Token.startsValue (s.opening ++ more) = true := by
    rcases hopen with hopen | hopen <;> rw [hopen] <;> rfl
  have hread : Token.Reads c.delimiter c.text (.word s.key.toList) (s.opening ++ more) := by
    refine .congr (hskip.trans ?_) (Token.lexes_key h.isKey c.delimiter (hc.1 ▸ hd) _ hends)
    rw [List.append_assoc]
  obtain ⟨hr, htoken⟩ := Cursor.exists_token? hread
  exact ⟨hindent, hc.atLineEnd h.flush.1, _, hr, htoken, hindent, hstarts,
    yields_readTail? h.value (filled_lines hsections) (head?_lines hsections) (hc.1 ▸ hd) rfl⟩

theorem name?_word (key : String) : (Token.word key.toList).name? = some key :=
  congrArg some String.ofList_toList

theorem yields_readFields? (h : List.Forall₂ Section.ReadsAsField sections fields)
    (hc : Cursor.IsBefore (sections.flatMap Section.lines) c) :
    Yields (readFields? false 0 c) fields (Cursor.IsBefore []) := by
  -- By induction on the sections: what is behind one section is before the next, whether the
  -- reading has stopped at the end of its last line or gone on to the next one.
  have hfilled := filled_lines h
  induction h generalizing c with
  | nil =>
    obtain ⟨d, hr, hskip, delimiter, hd, hat⟩ := hc.exists_skipBlanks? hfilled
    have hnone : d.token? = none := Cursor.token?_eq_none (by rw [hat.2]; rfl)
    rw [readFields?, toFurtherField?, if_neg Bool.false_ne_true, hskip]
    simp only [Option.bind_eq_bind, Option.bind_some, hnone, ite_self]
    exact ⟨_, rfl, rfl, delimiter, hd, .inr hat⟩
  | @cons s f sections fields hs hsections ih =>
    obtain ⟨d, hr, hskip, delimiter, hd, hat⟩ := hc.exists_skipBlanks? hfilled
    obtain ⟨hindent, -, e, he, htoken, -, hstarts, value, hvalue, hv, hbefore⟩ :=
      exists_field hs hsections hd hat
    obtain ⟨more, hmore, hm, hend⟩ := ih hbefore (filled_lines hsections)
    rw [readFields?, toFurtherField?, if_neg Bool.false_ne_true, hskip]
    simp only [Option.bind_eq_bind, Option.bind_some, hindent, if_true, htoken, name?_word, hstarts,
      hvalue, hmore]
    exact ⟨_, rfl, congrArg₂ List.cons (Prod.ext hs.key.symm hv) hm, hend⟩

theorem yields_readValue? (h : List.Forall₂ Section.ReadsAsField sections fields)
    (hc : Cursor.IsBefore (sections.flatMap Section.lines) c) :
    Yields (readValue? 0 c) (.object fields) (Cursor.IsBefore []) := by
  obtain ⟨d, hr, hskip, delimiter, hd, hat⟩ := hc.exists_skipBlanks? (filled_lines h)
  rw [readValue?, hskip, Option.bind_eq_bind, Option.bind_some]
  cases h with
  | nil =>
    have hend : d.atLineEnd = true := Cursor.atLineEnd_of_lineEnds (by rw [hat.2]; rfl)
    simp only [Nat.not_lt_zero, if_false, hend, if_true]
    exact ⟨_, rfl, rfl, delimiter, hd, .inr hat⟩
  | @cons s f sections fields hs hsections =>
    obtain ⟨-, hend, e, he, htoken, hindent, hstarts, value, hvalue, hv, hbefore⟩ :=
      exists_field hs hsections hd hat
    obtain ⟨more, hmore, hm, hlast⟩ := yields_readFields? hsections hbefore
    have hkey : Token.firstKey? (.word s.key.toList) e.text = some s.key := by
      rw [Token.firstKey?, if_pos hstarts, name?_word]
      all_goals
        intro cs hcs
        cases hcs
    simp only [Nat.not_lt_zero, Bool.false_eq_true, if_false, hend, htoken, hkey, hindent, if_true,
      hvalue, Option.bind_eq_bind, Option.bind_some, hmore]
    have hfield : (s.key, value.value) = f := Prod.ext hs.key.symm hv
    exact ⟨_, rfl, congrArg Value.object (congrArg₂ List.cons hfield hm), hlast⟩

theorem exists_start (hls : ∀ l ∈ ls, IsFilled l)
    (htop : ls.head?.all (indentOf · = 0) = true) {cs : List Char} (hcs : cs = Text.join '\n' ls) :
    ∃ c hc, Cursor.ofLine? none cs = some ⟨c, hc⟩ ∧ c.indent = 0 ∧ IsAt ls none c := by
  cases ls with
  | nil =>
    subst hcs
    exact ⟨_, _, rfl, rfl, rfl, rfl⟩
  | cons l ls =>
    obtain ⟨⟨c, hc⟩, hline, hat⟩ := Cursor.exists_ofLine? none
      (hls l List.mem_cons_self) (hcs.trans (Text.join_cons '\n' l ls))
    exact ⟨c, hc, hline, hat.2.1.trans (by simpa using htop), hat⟩

/-- A written document is read as the object of its sections. -/
theorem read?_write (h : List.Forall₂ Section.ReadsAsField sections fields) :
    read? (write sections) = some (.object fields) := by
  obtain ⟨c, hc, hstart, hindent, hat⟩ := exists_start (filled_lines h) (head?_lines h)
    (show (write sections).toList = _ from String.toList_ofList)
  obtain ⟨r, hread, hvalue, hbefore⟩ := yields_readValue? h ⟨none, .inl rfl, .inr hat⟩
  obtain ⟨d, hd, hskip, delimiter, -, hend⟩ := hbefore.exists_skipBlanks? (by simp)
  have hlast : d.atLineEnd = true := Cursor.atLineEnd_of_lineEnds (by rw [hend.2]; rfl)
  rw [read?, hstart]
  simp only [Option.bind_eq_bind, Option.bind_some, hread, hskip, hindent, hlast, and_self,
    if_true, hvalue]

end LinearAssignment.Toon
