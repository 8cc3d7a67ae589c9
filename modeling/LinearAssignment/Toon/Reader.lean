import LinearAssignment.Toon.Cursor
import LinearAssignment.Toon.Value

/-!
Reading of documents. What is read next stands at a known indent. A line elsewhere, or a token that
does not go on with what is read, ends it and is left to what encloses it.

Blank lines below a table, below a list on lines of its own, and below an object that is no item
are taken with it. Below anything else they are left, and neither an item nor a further field of an
item is read behind them.
-/

namespace LinearAssignment.Toon

/-- Documents nest at most 256 deep. -/
def greatestIndent : Nat := 512

/-! ### Tables and numbers -/

/-- As many rows of a table as are asked for, each at an indent, as objects. Blank lines below them
are taken with them. -/
def readRows? (indent : Nat) (names : List String) :
    Nat → (c : Cursor) → Option (Reading (List Value) c.remaining)
  | 0, c => c.skipBlanks?.map (.upTo [])
  | count + 1, c =>
    if c.indent = indent ∧ c.atLineEnd = false then do
      let (cells, ⟨c₁, h₁⟩) ← c.cells? names.length
      let ⟨c₂, h₂⟩ ← c₁.next?
      let rows ← readRows? indent names count c₂
      some ((rows.map (.object (names.zip (cells.map .scalar)) :: ·)).mono (Nat.le_trans h₂ h₁))
    else none

/-- Whether a field with a colon directly behind its key stands at a cursor. -/
def atPlainField (c : Cursor) : Bool :=
  match c.token? with
  | some (t, d) => t.name?.isSome && d.val.text.head? = some ':'
  | none => false

/-- The rows of a table, from the end of the line of its header. Behind them, at the indent of a
field, no other line than that of a plain field may stand. -/
def readTable? (rowIndent fieldIndent : Nat) (h : Header) (names : List String) (c : Cursor) :
    Option (Reading Value c.remaining) :=
  if c.below?.isSome then do
    let ⟨c₁, h₁⟩ ← c.skipBlanks?
    let rows ← readRows? rowIndent names h.count c₁
    if h.count = 0 ∨ rows.next.atLineEnd ∨ rows.next.indent ≠ fieldIndent ∨
        atPlainField rows.next then
      some ((rows.map .list).mono h₁)
    else none
  else none

/-- A number below a key. With the texts that follow it on the line it is one text. -/
def readNumber? (number : List Char) (c : Cursor) : Option (Reading Value c.remaining) :=
  match c.texts with
  | ([], _) => (Scalar.readTrimmed? number).map fun s ↦ .upTo (.scalar s) c.here
  | (more, d) => some (.upTo (.scalar (.text (String.ofList (number ++ more)))) d)

/-! ### Objects and lists -/

/-- Where a further field of an object may begin. Blank lines may stand before it, but not if the
object is an item of a list. -/
def toFurtherField? (isItem : Bool) (indent : Nat) (c : Cursor) :
    Option (Cursor.Within c.remaining) :=
  if isItem then
    if c.indentBelow?.any (indent ≤ ·) then c.next? else some c.here
  else c.skipBlanks?

mutual

/-- The value below a key, or a document: a list, an object, a number, a truth value or null. The
first field of the object may stand at any even indent, those after it stand at the given one. -/
def readValue? (indent : Nat) (c : Cursor) : Option (Reading Value c.remaining) := do
  let ⟨c₁, h₁⟩ ← c.skipBlanks?
  if greatestIndent < indent then none
  else if c₁.atLineEnd then some ⟨.object [], c₁, h₁⟩
  else
    match c₁.token? with
    | none => none
    | some (.mark '[', ⟨c₂, h₂⟩) => (readList? false indent c₂).map (·.mono (by omega))
    | some (t, ⟨c₂, h₂⟩) =>
      match t.firstKey? c₂.text with
      | some key =>
        if c₂.indent % 2 = 0 then do
          let first ← readTail? false indent c₂
          let more ← readFields? false indent first.next
          some ((more.map fun fields ↦ .object ((key, first.value) :: fields)).mono (by
            have := first.remaining_le
            omega))
        else none
      | none =>
        match t with
        | .number cs => (readNumber? cs c₂).map (·.mono (by omega))
        | t => t.literal?.map fun s ↦ ⟨.scalar s, c₂, by omega⟩
termination_by c.remaining
decreasing_by
  · omega
  · omega
  · have := first.remaining_le
    omega

/-- The fields after the first. A key with nothing behind it ends the object. -/
def readFields? (isItem : Bool) (indent : Nat) (c : Cursor) :
    Option (Reading (List (String × Value)) c.remaining) := do
  let ⟨c₁, h₁⟩ ← toFurtherField? isItem indent c
  match if c₁.indent = indent then c₁.token? else none with
  | none => some ⟨[], c₁, h₁⟩
  | some (t, ⟨c₂, h₂⟩) =>
    match t.name? with
    | none => some ⟨[], c₁, h₁⟩
    | some key =>
      if Token.startsValue c₂.text then do
        let value ← readTail? isItem indent c₂
        let more ← readFields? isItem indent value.next
        some ((more.map ((key, value.value) :: ·)).mono (by
          have := value.remaining_le
          omega))
      else some ⟨[], c₂, by omega⟩
termination_by c.remaining
decreasing_by
  · omega
  · have := value.remaining_le
    omega

def readTail? (isItem : Bool) (indent : Nat) (c : Cursor) : Option (Reading Value c.remaining) :=
  match c.token? with
  | some (.mark '[', ⟨c₁, h₁⟩) => (readList? false indent c₁).map (·.mono (by omega))
  | some (.mark ':', ⟨c₁, h₁⟩) => (readAfterColon? isItem indent c₁).map (·.mono (by omega))
  | _ => none
termination_by c.remaining

/-- The value behind a colon. If the line ends there it stands below, provided that the next line,
blank or not, is indented by at least two more; otherwise it is the empty object. -/
def readAfterColon? (isItem : Bool) (indent : Nat) (c : Cursor) :
    Option (Reading Value c.remaining) :=
  if c.atLineEnd then
    if c.indentBelow?.any (indent + 2 ≤ ·) then do
      let ⟨d, h⟩ ← c.down?
      (readValue? (indent + 2) d).map (·.mono (by omega))
    else some (.upTo (.object []) c.here)
  else
    match c.token? with
    | none => none
    | some (.mark '[', ⟨c₁, h₁⟩) =>
      (readList? false (if isItem then indent else indent + 2) c₁).map (·.mono (by omega))
    | some (t, ⟨c₁, h₁⟩) =>
      if t.text?.isSome then
        (t.scalarWith? (c₁.text.takeWhile (· ≠ '\n'))).map fun s ↦
          (Reading.upTo (.scalar s) c₁.lineEnd).mono (by omega)
      else none
termination_by c.remaining

/-- A list, from what stands behind the opening bracket of its header. Items on lines of their own
are indented by two, and by two more below the first key of an item. -/
def readList? (isFirst : Bool) (indent : Nat) (c : Cursor) : Option (Reading Value c.remaining) :=
  if greatestIndent < indent then none
  else do
    let (h, ⟨c₁, h₁⟩) ← c.header?
    let itemIndent := if isFirst then indent + 4 else indent + 2
    match h.columns with
    | some names => (readTable? itemIndent (indent + 2) h names c₁).map (·.mono (by omega))
    | none =>
      if h.count = 0 then some ⟨.list [], c₁, by omega⟩
      else if c₁.below?.isSome then do
        let ⟨c₂, h₂⟩ ← c₁.skipBlanks?
        (readItems? itemIndent h.count c₂).map fun items ↦ (items.map .list).mono (by omega)
      else
        (readInline? itemIndent h.count c₁).map fun items ↦ (items.map .list).mono (by omega)
termination_by c.remaining
decreasing_by
  · omega
  · omega

/-- The items of a list on the line of its header, with delimiters between them and none behind the
last. Each is a cell, or a list with a header of its own. -/
def readInline? (indent : Nat) (count : Nat) (c : Cursor) :
    Option (Reading (List Value) c.remaining) :=
  match count with
  | 0 => some (.upTo [] c.here)
  | count + 1 => do
    let item : Reading Value c.remaining ← match c.token? with
      | some (.mark '[', ⟨c₁, h₁⟩) => (readList? false indent c₁).map (·.mono (by omega))
      | _ => c.cell?.map fun (s, d) ↦ .upTo (.scalar s) d
    if count = 0 then
      if item.next.atDelimiter then none else some (item.map ([·]))
    else
      match item.next.token? with
      | some (.delimiter, ⟨c₁, h₁⟩) => do
        let items ← readInline? indent count c₁
        some ((items.map (item.value :: ·)).mono (by
          have := item.remaining_le
          omega))
      | _ => none
termination_by c.remaining
decreasing_by
  · have := item.remaining_le
    omega
  · omega

/-- As many items as a header announces. Blank lines below them are taken with them. -/
def readItems? (indent : Nat) (count : Nat) (c : Cursor) :
    Option (Reading (List Value) c.remaining) :=
  match count with
  | 0 => c.skipBlanks?.map (.upTo [])
  | count + 1 =>
    match if c.indent = indent then c.token? else none with
    | some (.dash, ⟨c₁, h₁⟩) => do
      let item ← readItem? indent c₁
      let ⟨c₂, h₂⟩ ← item.next.next?
      let items ← readItems? indent count c₂
      some ((items.map (item.value :: ·)).mono (by
        have := item.remaining_le
        omega))
    | _ => none
termination_by c.remaining
decreasing_by
  · omega
  · have := item.remaining_le
    omega

def readItem? (indent : Nat) (c : Cursor) : Option (Reading Value c.remaining) :=
  if c.atLineEnd then some (.upTo (.object []) c.here)
  else
    match c.token? with
    | none => none
    | some (.mark '[', ⟨c₁, h₁⟩) => (readList? false indent c₁).map (·.mono (by omega))
    | some (t, ⟨c₁, h₁⟩) =>
      match t.name? with
      | none => t.literal?.map fun s ↦ ⟨.scalar s, c₁, by omega⟩
      | some key =>
        match c₁.token? with
        | some (.mark '[', ⟨c₂, h₂⟩) => do
          let first ← readList? true indent c₂
          let more ← readFields? true (indent + 2) first.next
          some ((more.map fun fields ↦ .object ((key, first.value) :: fields)).mono (by
            have := first.remaining_le
            omega))
        | some (.mark ':', ⟨c₂, h₂⟩) => do
          let first ← readAfterColon? true (indent + 2) c₂
          let more ← readFields? true (indent + 2) first.next
          some ((more.map fun fields ↦ .object ((key, first.value) :: fields)).mono (by
            have := first.remaining_le
            omega))
        | _ => some ⟨.scalar (.text key), c₁, by omega⟩
termination_by c.remaining
decreasing_by
  · omega
  · omega
  · have := first.remaining_le
    omega
  · omega
  · have := first.remaining_le
    omega

end

/-! ### Documents -/

/-- Reads the value of a document. Its first line, blank or not, has an even indent, and only blank
lines follow the value. -/
def read? (text : String) : Option Value := do
  let ⟨c, _⟩ ← Cursor.ofLine? none text.toList
  let r ← readValue? 0 c
  let ⟨last, _⟩ ← r.next.skipBlanks?
  if c.indent % 2 = 0 ∧ last.atLineEnd then some r.value else none

end LinearAssignment.Toon
