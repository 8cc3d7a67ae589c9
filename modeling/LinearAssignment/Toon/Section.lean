import LinearAssignment.Text.Join
import LinearAssignment.Toon.Scalar

/-!
Sections of a document and their text: a key with a scalar, a key with a list of rows of any
lengths, or a key with a table.
-/

namespace LinearAssignment.Toon

inductive Section where
  | scalar (key : String) (value : Scalar)
  | rows (key : String) (items : List (List Scalar))
  | table (key : String) (columns : List String) (items : List (List Scalar))

namespace Section

def writeCells (cells : List Scalar) : List Char := Text.join ',' (cells.map Scalar.write)

def writeCount (n : Nat) : List Char := '[' :: Nat.toDigits 10 n ++ [']']

/-- A row is an item of a list, with a header of its own. -/
def writeRow : List Scalar → List Char
  | [] => "  - ".toList ++ writeCount 0 ++ [':']
  | cells => "  - ".toList ++ writeCount cells.length ++ ": ".toList ++ writeCells cells

def writeTableRow (cells : List Scalar) : List Char := "  ".toList ++ writeCells cells

def writeColumns (columns : List String) : List Char :=
  '{' :: Text.join ',' (columns.map String.toList) ++ ['}']

/-- The lines of a section. A table without rows does not name its columns. -/
def lines : Section → List (List Char)
  | scalar key value => [key.toList ++ ": ".toList ++ value.write]
  | rows key items => (key.toList ++ writeCount items.length ++ [':']) :: items.map writeRow
  | table key _ [] => [key.toList ++ writeCount 0 ++ [':']]
  | table key columns items =>
    (key.toList ++ writeCount items.length ++ writeColumns columns ++ [':']) ::
      items.map writeTableRow

end Section

def write (sections : List Section) : String :=
  String.ofList (Text.join '\n' (sections.flatMap Section.lines))

end LinearAssignment.Toon
