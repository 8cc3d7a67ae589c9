import LinearAssignment.Toon.Quoted
import LinearAssignment.Toon.Scalar

/-!
Tokens of a document. Spaces may stand before each; they part words, as marks, line ends and the
delimiter of the last list do.
-/

namespace LinearAssignment.Toon

/-- What has been read from the beginning of a text, with a shorter text that is left. -/
abbrev Part (α : Type) (cs : List Char) : Type := α × { rest : List Char // rest.length < cs.length }

inductive Token where
  /-- A bracket, a brace or a colon. -/
  | mark (c : Char)
  /-- A minus sign with no digit behind it. -/
  | dash
  | delimiter
  | quoted (content : List Char)
  /-- A number as it is written. -/
  | number (cs : List Char)
  /-- A truth value or null as it is written. -/
  | literal (cs : List Char)
  | word (cs : List Char)
deriving DecidableEq

namespace Token

/-! ### Reading tokens -/

def isMark (c : Char) : Bool := c ∈ ['[', ']', '{', '}', ':']

def isEnd (delimiter : Option Char) (c : Char) : Bool :=
  c = ' ' || c = '\n' || isMark c || delimiter = some c

def isNumberChar (c : Char) : Bool := c.isDigit || c ∈ ['.', 'e', 'E', '+', '-']

/-- The token of a run of number characters. It is a number if it has the form of one and the
text that follows does not go on with the word. -/
def ofNumberChars (delimiter : Option Char) (cs rest : List Char) : Token :=
  if rest.head?.all (isEnd delimiter) && (Scalar.readNumber? cs).isSome then number cs else word cs

/-- The token of a run of other characters, without the white space behind it; a tab that stands
alone is kept. -/
def ofWordChars (cs : List Char) : Token :=
  let cs := if cs = ['\t'] then cs else Text.trimRight cs
  if Scalar.isLiteral cs then literal cs else word cs

/-- The token at the beginning of a text that does not begin with a space, and what follows it. A
line end is no token. -/
def scan? (delimiter : Option Char) : List Char → Option (Token × List Char)
  | [] => none
  | c :: cs =>
    if c = '\n' then none
    else if isMark c then some (mark c, cs)
    else if c = '-' ∧ cs.head?.any Char.isDigit = false then some (dash, cs)
    else if c = '-' ∨ c.isDigit then
      let rest := cs.dropWhile isNumberChar
      some (ofNumberChars delimiter (c :: cs.takeWhile isNumberChar) rest, rest)
    else if delimiter = some c then some (.delimiter, cs)
    else if c = '"' then (unquote? cs).map fun (content, rest) ↦ (quoted content, rest)
    else
      some (ofWordChars (c :: cs.takeWhile (!isEnd delimiter ·)), cs.dropWhile (!isEnd delimiter ·))

theorem length_lt_of_scan? {delimiter : Option Char} {cs rest : List Char} {t : Token}
    (h : scan? delimiter cs = some (t, rest)) : rest.length < cs.length := by
  cases cs with
  | nil => simp [scan?] at h
  | cons c cs =>
    have hd (p : Char → Bool) : (cs.dropWhile p).length < (c :: cs).length :=
      Nat.lt_succ_of_le (List.dropWhile_sublist _).length_le
    have heq {u : Token} {r : List Char} (h : some (u, r) = some (t, rest)) : r = rest :=
      (Prod.mk.inj (Option.some.inj h)).2
    rw [scan?] at h
    split at h
    · cases h
    · split at h
      · exact heq h ▸ Nat.lt_succ_self _
      · split at h
        · exact heq h ▸ Nat.lt_succ_self _
        · split at h
          · exact heq h ▸ hd _
          · split at h
            · exact heq h ▸ Nat.lt_succ_self _
            · split at h
              · obtain ⟨⟨content, left⟩, hq, he⟩ := Option.map_eq_some_iff.1 h
                exact heq (congrArg some he) ▸ Nat.lt_succ_of_le (length_le_of_unquote? hq)
              · exact heq h ▸ hd _

/-- The next token of a line, and what follows it. There is none at the end of the line, nor where
a quoted text is not closed. -/
def read? (delimiter : Option Char) (cs : List Char) : Option (Part Token cs) :=
  match h : scan? delimiter (Text.skipSpaces cs) with
  | none => none
  | some (t, rest) =>
    some (t, ⟨rest, Nat.lt_of_lt_of_le (length_lt_of_scan? h) (Text.length_skipSpaces_le cs)⟩)

/-! ### What tokens stand for -/

/-- A token that is more than a part of the structure, as it is written. -/
def text? : Token → Option (List Char)
  | quoted cs => some (quote cs)
  | number cs | literal cs | word cs => some cs
  | mark _ | dash | delimiter => none

/-- The spaces at the beginning of a text, or one if there are none. -/
def gap (cs : List Char) : List Char :=
  let spaces := cs.takeWhile (· == ' ')
  if spaces.isEmpty then [' '] else spaces

/-- The tokens at the beginning of a line up to a part of the structure, each as it is written and
behind its gap, and what follows them. -/
def readTexts (delimiter : Option Char) (cs : List Char) :
    List Char × { rest : List Char // rest.length ≤ cs.length } :=
  match read? delimiter cs with
  | some (t, ⟨rest, h⟩) =>
    match t.text? with
    | some text =>
      let (more, ⟨rest', h'⟩) := readTexts delimiter rest
      (gap cs ++ text ++ more, ⟨rest', Nat.le_trans h' (Nat.le_of_lt h)⟩)
    | none => ([], ⟨cs, Nat.le_refl _⟩)
  | none => ([], ⟨cs, Nat.le_refl _⟩)
termination_by cs.length

def name? : Token → Option String
  | quoted cs | word cs => some (String.ofList cs)
  | _ => none

def literal? : Token → Option Scalar
  | number cs | literal cs => Scalar.readTrimmed? cs
  | _ => none

def scalar? (t : Token) : Option Scalar := (t.name?.map .text).or t.literal?

/-- The characters of a token that more text may extend. -/
def chars? : Token → Option (List Char)
  | mark c => some [c]
  | dash => some ['-']
  | t => t.text?

/-- The scalar that begins with a token and goes on with all of a text. Behind a space the text
counts even if it is blank: the token is then read once more, without white space around it. -/
def scalarWith? (t : Token) (tail : List Char) : Option Scalar :=
  if tail.head? ≠ some ' ' ∧ (Text.trimRight tail).isEmpty then t.scalar?
  else t.chars?.bind fun cs ↦ Scalar.read? (cs ++ tail)

/-- Whether a text goes on like a field behind its key: with a colon, or with the header of a
list. -/
def startsValue (cs : List Char) : Bool :=
  (Text.skipSpaces cs).head?.any fun c ↦ c = ':' || c = '['

/-- The key of the first field of an object, from its token and the text behind it. A number, a
truth value or null is a key if the colon follows directly. -/
def firstKey? (t : Token) (rest : List Char) : Option String :=
  match t with
  | number cs | literal cs => if rest.head? = some ':' then some (String.ofList cs) else none
  | _ => if startsValue rest then t.name? else none

end Token

end LinearAssignment.Toon
