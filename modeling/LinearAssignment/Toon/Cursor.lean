import LinearAssignment.Toon.Cell
import LinearAssignment.Toon.Header

/-!
Cursors: places in a document from which it is read on. What is left of the document becomes
shorter with each step, so reading comes to an end.

A blank line has an indent, too: all of its spaces.
-/

namespace LinearAssignment.Toon

structure Cursor where
  /-- The number of spaces at the beginning of the line of the cursor. -/
  indent : Nat
  /-- What is left of the document. -/
  text : List Char
  /-- The delimiter of the last list that was begun. -/
  delimiter : Option Char
deriving DecidableEq

namespace Cursor

def remaining (c : Cursor) : Nat := c.text.length

abbrev Within (n : Nat) : Type := { c : Cursor // c.remaining ≤ n }

def here (c : Cursor) : Within c.remaining := ⟨c, Nat.le_refl _⟩

abbrev Behind (c : Cursor) : Type := { d : Cursor // d.remaining < c.remaining }

/-! ### Lines -/

/-- Behind the indent of the line at the beginning of a text. Indents are made of spaces; a tab
after them is refused. -/
def ofLine? (delimiter : Option Char) (cs : List Char) : Option (Within cs.length) :=
  let text := Text.skipSpaces cs
  if text.head? = some '\t' then none
  else some ⟨⟨(cs.takeWhile (· == ' ')).length, text, delimiter⟩, Text.length_skipSpaces_le cs⟩

def atLineEnd (c : Cursor) : Bool := (Text.skipSpaces c.text).head?.all (· = '\n')

def lineEnd (c : Cursor) : Within c.remaining :=
  ⟨⟨c.indent, c.text.dropWhile (· ≠ '\n'), c.delimiter⟩, (List.dropWhile_sublist _).length_le⟩

/-- From the end of a line, the text below it. -/
def below? (c : Cursor) : Option { cs : List Char // cs.length < c.remaining } :=
  match h : Text.skipSpaces c.text with
  | '\n' :: cs => some ⟨cs, by
      have := Text.length_skipSpaces_le c.text
      rw [h] at this
      exact this⟩
  | _ => none

/-- From the end of a line, the indent of the line below it, blank or not. -/
def indentBelow? (c : Cursor) : Option Nat :=
  c.below?.map fun cs ↦ (cs.val.takeWhile (· == ' ')).length

/-- From the end of a line, the beginning of the line below it. -/
def down? (c : Cursor) : Option (Behind c) := do
  let ⟨cs, h⟩ ← c.below?
  let ⟨d, h'⟩ ← ofLine? c.delimiter cs
  some ⟨d, Nat.lt_of_le_of_lt h' h⟩

/-- From the end of a line, the beginning of the line below it if there is one. -/
def next? (c : Cursor) : Option (Within c.remaining) :=
  if c.below?.isSome then c.down?.map fun d ↦ ⟨d.val, Nat.le_of_lt d.property⟩
  else some c.here

/-- What begins with the first line with text. `line` is the text from the beginning of a line on,
and the characters before the others of it are spaces. -/
def dropBlankLines (line : List Char) : List Char → List Char
  | [] => []
  | c :: cs =>
    if c = '\n' then dropBlankLines cs cs else if c = ' ' then dropBlankLines line cs else line

theorem length_dropBlankLines_le {n : Nat} {line cs : List Char} (hl : line.length ≤ n)
    (hc : cs.length ≤ n) : (dropBlankLines line cs).length ≤ n := by
  induction cs generalizing line with
  | nil => exact Nat.zero_le _
  | cons c cs ih =>
    rw [dropBlankLines]
    split
    · exact ih (Nat.le_of_succ_le hc) (Nat.le_of_succ_le hc)
    · split
      · exact ih hl (Nat.le_of_succ_le hc)
      · exact hl

/-- From the end of a line, the beginning of the next line with text, or the end of the document. -/
def skipBlanks? (c : Cursor) : Option (Within c.remaining) :=
  if c.atLineEnd then
    (ofLine? c.delimiter (dropBlankLines c.text c.text)).map fun d ↦
      ⟨d.val, Nat.le_trans d.property (length_dropBlankLines_le (Nat.le_refl _) (Nat.le_refl _))⟩
  else some c.here

/-! ### Parts of lines -/

def token? (c : Cursor) : Option (Token × Behind c) := do
  let (t, ⟨rest, h⟩) ← Token.read? c.delimiter c.text
  some (t, ⟨⟨c.indent, rest, c.delimiter⟩, h⟩)

/-- The header behind an opening bracket, and the place behind it. Its delimiter holds from there
on. -/
def header? (c : Cursor) : Option (Header × Behind c) := do
  let (h, ⟨rest, hr⟩) ← Header.read? c.delimiter c.text
  some (h, ⟨⟨c.indent, rest, some h.delimiter⟩, hr⟩)

def atDelimiter (c : Cursor) : Bool := c.token?.any fun (t, _) ↦ t = .delimiter

/-- The texts that follow on the line, and the place behind them. -/
def texts (c : Cursor) : List Char × Within c.remaining :=
  let (cs, ⟨rest, h⟩) := Token.readTexts c.delimiter c.text
  (cs, ⟨⟨c.indent, rest, c.delimiter⟩, h⟩)

def cell? (c : Cursor) : Option (Scalar × Within c.remaining) := do
  let (s, ⟨rest, h⟩) ← Cell.read? c.delimiter c.text
  some (s, ⟨⟨c.indent, rest, c.delimiter⟩, h⟩)

/-- The cells that are left of the line, as many as are asked for, and the end of the line. -/
def cells? (count : Nat) (c : Cursor) : Option (List Scalar × Within c.remaining) := do
  let (cells, ⟨rest, h⟩) ← Cell.readMany? c.delimiter count c.text
  let d : Cursor := ⟨c.indent, rest, c.delimiter⟩
  if d.atLineEnd then some (cells, ⟨d, h⟩) else none

end Cursor

structure Reading (α : Type) (n : Nat) where
  value : α
  next : Cursor
  remaining_le : next.remaining ≤ n

namespace Reading

variable {α β : Type} {m n : Nat}

def upTo (value : α) (c : Cursor.Within n) : Reading α n := ⟨value, c.val, c.property⟩

def map (f : α → β) (r : Reading α n) : Reading β n := ⟨f r.value, r.next, r.remaining_le⟩

def mono (r : Reading α m) (h : m ≤ n) : Reading α n :=
  ⟨r.value, r.next, Nat.le_trans r.remaining_le h⟩

end Reading

end LinearAssignment.Toon
