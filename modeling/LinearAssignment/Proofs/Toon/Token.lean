import LinearAssignment.Proofs.Toon.Number
import LinearAssignment.Toon.Token

/-!
Tokens of written documents: numbers, keys and null each are one token, whatever follows behind
their end. The only delimiter in written documents is the comma, and there is none before the first
list.
-/

namespace LinearAssignment.Toon

open Decimal (signText)

variable {delimiter : Option Char} {cs rest : List Char} {t : Token}

/-- The delimiters that hold in written documents. -/
def IsWritten (delimiter : Option Char) : Prop := delimiter = none ∨ delimiter = some ','

namespace Token

/-- The end of a token: a space, a line end, a mark or the delimiter, or the end of the document. -/
def Ends (delimiter : Option Char) (rest : List Char) : Prop :=
  rest.head?.all (isEnd delimiter) = true

@[simp] theorem ends_nil : Ends delimiter [] := rfl

@[simp] theorem ends_cons {c : Char} : Ends delimiter (c :: rest) ↔ isEnd delimiter c = true := by
  simp [Ends]

theorem Ends.stops (h : Ends delimiter rest) : Text.Stops (!isEnd delimiter ·) rest := by
  cases rest with
  | nil => exact Text.stops_nil
  | cons c rest => exact Text.stops_cons.mpr (by simpa using h)

def LineEnds (rest : List Char) : Prop := rest.head?.all (· = '\n') = true

theorem LineEnds.ends (h : LineEnds rest) : Ends delimiter rest := by
  cases rest with
  | nil => exact ends_nil
  | cons c rest =>
    obtain rfl : c = '\n' := by simpa [LineEnds] using h
    exact ends_cons.mpr rfl

theorem isEnd_of_none {c : Char} (h : isEnd none c = true) : isEnd delimiter c = true := by
  simp only [isEnd, Bool.or_eq_true, decide_eq_true_eq] at h ⊢
  tauto

theorem isEnd_comma (hd : IsWritten delimiter) {c : Char} (h : isEnd (some ',') c = false) :
    isEnd delimiter c = false := by
  obtain rfl | rfl := hd
  · exact Bool.eq_false_of_not_eq_true fun hc ↦ by simp [isEnd_of_none hc] at h
  · exact h

/-! ### Scanning -/

/-- The first token of a text, behind spaces, and what follows it. -/
def Reads (delimiter : Option Char) (cs : List Char) (t : Token) (rest : List Char) : Prop :=
  scan? delimiter (Text.skipSpaces cs) = some (t, rest)

theorem Reads.read? (h : Reads delimiter cs t rest) :
    ∃ hr, read? delimiter cs = some (t, ⟨rest, hr⟩) := by
  unfold Token.read?
  split
  · next hnone => exact absurd (h.symm.trans hnone) (Option.some_ne_none _)
  · next hsome =>
    obtain ⟨rfl, rfl⟩ := Prod.mk.inj (Option.some.inj (hsome.symm.trans h))
    exact ⟨Nat.lt_of_lt_of_le (length_lt_of_scan? h) (Text.length_skipSpaces_le cs), rfl⟩

theorem read?_eq_none (h : scan? delimiter (Text.skipSpaces cs) = none) :
    Token.read? delimiter cs = none := by
  unfold Token.read?
  split
  · rfl
  · next hsome => exact absurd (hsome.symm.trans h) (Option.some_ne_none _)

theorem Reads.congr {cs' : List Char} (h : Text.skipSpaces cs = Text.skipSpaces cs')
    (hr : Reads delimiter cs' t rest) : Reads delimiter cs t rest :=
  (congrArg (scan? delimiter) h).trans hr

theorem skipSpaces_cons {c : Char} (hc : c ≠ ' ') (cs : List Char) :
    Text.skipSpaces (c :: cs) = c :: cs := by
  rw [Text.skipSpaces, List.dropWhile_cons, if_neg (by simpa using hc)]

theorem reads_mark (delimiter : Option Char) {c : Char} (hc : isMark c = true) (cs : List Char) :
    Reads delimiter (c :: cs) (.mark c) cs := by
  have hspace : c ≠ ' ' := by rintro rfl; cases hc
  have hline : c ≠ '\n' := by rintro rfl; cases hc
  rw [Reads, skipSpaces_cons hspace, scan?, if_neg hline, if_pos hc]

theorem reads_dash (cs : List Char) : Reads delimiter ('-' :: ' ' :: cs) .dash (' ' :: cs) := rfl

theorem reads_comma (cs : List Char) : Reads (some ',') (',' :: cs) .delimiter cs := rfl

/-- `cs` is the token `t`, whatever follows behind its end. -/
def Lexes (cs : List Char) (t : Token) : Prop :=
  ∀ delimiter, IsWritten delimiter → ∀ rest, Ends delimiter rest →
    Reads delimiter (cs ++ rest) t rest

/-! ### Numbers -/

/-- A text that begins like a number is a number or a word. -/
def ofNumeral (cs : List Char) : Token :=
  if (Scalar.readNumber? cs).isSome then number cs else word cs

theorem isNumberChar_of_isEnd (hd : IsWritten delimiter) {c : Char}
    (h : isEnd delimiter c = true) : isNumberChar c = false := by
  have hmem : c ∈ [' ', '\n', '[', ']', '{', '}', ':', ','] := by
    obtain rfl | rfl := hd <;>
      simp only [isEnd, isMark, Bool.or_eq_true, decide_eq_true_eq] at h <;> aesop
  fin_cases hmem <;> rfl

theorem scan?_numeral {c : Char} {cs : List Char} (hc : c.isDigit = true ∨ c = '-')
    (hdash : c = '-' → cs.head?.any Char.isDigit = true) (hcs : ∀ d ∈ cs, isNumberChar d = true)
    (hrest : Text.Stops isNumberChar rest) :
    scan? delimiter (c :: (cs ++ rest)) = some (ofNumberChars delimiter (c :: cs) rest, rest) := by
  have hmark : isMark c = false ∧ c ≠ '\n' := by
    rcases hc with hc | rfl
    · have hne {d : Char} (hd : d.isDigit = false) : c ≠ d := Scalar.ne_of_isDigit hc hd
      simp [isMark, hne]
    · exact ⟨rfl, by decide⟩
  have hnext : ¬(c = '-' ∧ (cs ++ rest).head?.any Char.isDigit = false) := fun ⟨h, hf⟩ ↦ by
    have hd := hdash h
    cases cs with
    | nil => cases hd
    | cons d ds => exact Bool.false_ne_true (hf.symm.trans hd)
  rw [scan?, if_neg hmark.2, if_neg (by simp [hmark.1]), if_neg hnext, if_pos hc.symm,
    Text.takeWhile_run hcs hrest, Text.dropWhile_run hcs hrest]

theorem exists_numeral (h : Scalar.IsNumeral cs) : ∃ c ds, cs = c :: ds ∧
    (c.isDigit = true ∨ c = '-') ∧ (c = '-' → ds.head?.any Char.isDigit = true) ∧
      ∀ d ∈ ds, isNumberChar d = true := by
  obtain ⟨s, ds, hds, rfl⟩ := h
  obtain ⟨c, ds, rfl, hc⟩ := Scalar.exists_digit_of_isNumberLike hds
  have hall : ∀ d ∈ ds, isNumberChar d = true :=
    List.all_eq_true.mp ((Bool.and_eq_true _ _).mp hds).2
  cases s with
  | positive =>
    exact ⟨c, ds, rfl, .inl hc, fun h ↦ absurd h (Scalar.ne_of_isDigit hc rfl), hall⟩
  | negative =>
    refine ⟨'-', c :: ds, rfl, .inr rfl, fun _ ↦ hc, fun d hd ↦ ?_⟩
    rcases List.mem_cons.mp hd with rfl | hd
    · rw [isNumberChar, hc, Bool.true_or]
    · exact hall d hd

theorem lexes_numeral (h : Scalar.IsNumeral cs) : Lexes cs (ofNumeral cs) := by
  intro delimiter hd rest hrest
  have hstop : Text.Stops isNumberChar rest := by
    cases rest with
    | nil => exact Text.stops_nil
    | cons c rest => exact Text.stops_cons.mpr (isNumberChar_of_isEnd hd (ends_cons.mp hrest))
  obtain ⟨c, ds, rfl, hc, hdash, hds⟩ := exists_numeral h
  have hspace : c ≠ ' ' := by
    rcases hc with hc | rfl
    · exact Scalar.ne_of_isDigit hc rfl
    · decide
  have hnumber : ofNumberChars delimiter (c :: ds) rest = ofNumeral (c :: ds) := by
    rw [ofNumberChars, show rest.head?.all (isEnd delimiter) = true from hrest, Bool.true_and]
    rfl
  rw [Reads, List.cons_append, skipSpaces_cons hspace, scan?_numeral hc hdash hds hstop, hnumber]

theorem readTrimmed?_numeral (h : Scalar.IsNumeral cs) : Scalar.readTrimmed? cs =
    (Scalar.readNumber? cs).getD (some (.text (String.ofList cs))) := by
  obtain ⟨c, ds, rfl, hc, -⟩ := exists_numeral h
  refine Scalar.readTrimmed?_cons ?_ ds
  rcases hc with hc | rfl
  · have hne {d : Char} (hd : d.isDigit = false) : c ≠ d := Scalar.ne_of_isDigit hc hd
    simp [hne]
  · decide

/-- A number that is not one of its kind is a word; that is how it is read as a text. -/
theorem scalar?_ofNumeral (h : Scalar.IsNumeral cs) :
    (ofNumeral cs).scalar? = Scalar.readTrimmed? cs := by
  rw [readTrimmed?_numeral h, ofNumeral]
  cases hn : Scalar.readNumber? cs with
  | none => rfl
  | some r =>
    rw [if_pos (show (some r).isSome = true from rfl)]
    change Scalar.readTrimmed? cs = _
    rw [readTrimmed?_numeral h, hn]

/-! ### Words -/

/-- The run of characters up to the end of a token, where it begins neither like a number nor like
quoted text. -/
theorem scan?_word {c : Char} {cs : List Char} (hc : c.isDigit = false ∧ c ≠ '-' ∧ c ≠ '"')
    (hcs : ∀ d ∈ c :: cs, isEnd delimiter d = false) (hrest : Ends delimiter rest) :
    scan? delimiter (c :: (cs ++ rest)) = some (ofWordChars (c :: cs), rest) := by
  obtain ⟨hdigit, hdash, hquote⟩ := hc
  obtain ⟨hcEnd, hcs⟩ := List.forall_mem_cons.mp hcs
  simp only [isEnd, Bool.or_eq_false_iff, decide_eq_false_iff_not] at hcEnd
  obtain ⟨⟨⟨-, hline⟩, hmark⟩, hdelimiter⟩ := hcEnd
  have hrun : ∀ d ∈ cs, (!isEnd delimiter d) = true := fun d hd ↦ by rw [hcs d hd]; rfl
  rw [scan?, if_neg hline, if_neg (by simp [hmark]), if_neg (by simp [hdash]),
    if_neg (by simp [hdash, hdigit]), if_neg hdelimiter, if_neg hquote,
    Text.takeWhile_run hrun hrest.stops, Text.dropWhile_run hrun hrest.stops]

/-- A run that is one token in written documents, also at the beginning of a line. -/
def IsRun (cs : List Char) : Prop :=
  (cs.head?.any fun c ↦ !c.isDigit && c != '-' && c != '"' && c != '\t') = true ∧
    (cs.all fun c ↦ !isEnd (some ',') c) = true

instance (cs : List Char) : Decidable (IsRun cs) := inferInstanceAs (Decidable (_ ∧ _))

theorem exists_run (h : IsRun cs) : ∃ c ds, cs = c :: ds ∧
    (c.isDigit = false ∧ c ≠ '-' ∧ c ≠ '"') ∧ c ∉ [' ', '\n', '\t'] ∧
      ∀ d ∈ c :: ds, isEnd (some ',') d = false := by
  obtain ⟨hhead, hrun⟩ := h
  have hall : ∀ c ∈ cs, isEnd (some ',') c = false := by simpa using hrun
  cases cs with
  | nil => cases hhead
  | cons c ds =>
    obtain ⟨hdigit, hdash, hquote, htab⟩ : c.isDigit = false ∧ c ≠ '-' ∧ c ≠ '"' ∧ c ≠ '\t' := by
      simpa [and_assoc] using hhead
    have hne {d : Char} (hd : isEnd (some ',') d = true) : c ≠ d := by
      rintro rfl
      exact Bool.false_ne_true ((hall c List.mem_cons_self).symm.trans hd)
    exact ⟨c, ds, rfl, ⟨hdigit, hdash, hquote⟩, by simp [hne, htab, isEnd], hall⟩

theorem lexes_run (h : IsRun cs) : Lexes cs (ofWordChars cs) := by
  intro delimiter hd rest hrest
  obtain ⟨c, ds, rfl, hc, hspace, hall⟩ := exists_run h
  have hspace : c ≠ ' ' := fun h ↦ hspace (h ▸ List.mem_cons_self)
  rw [Reads, List.cons_append, skipSpaces_cons hspace,
    scan?_word hc (fun d hm ↦ isEnd_comma hd (hall d hm)) hrest]

/-- A key that is written as it is and read as it is. -/
def IsKey (key : String) : Prop := IsRun key.toList ∧ ofWordChars key.toList = word key.toList

instance (key : String) : Decidable (IsKey key) := inferInstanceAs (Decidable (_ ∧ _))

theorem lexes_key {key : String} (h : IsKey key) : Lexes key.toList (word key.toList) :=
  h.2 ▸ lexes_run h.1


end Token

/-! ### Numbers and null -/

/-- A line with text, and no tab before it. -/
def IsFilled (l : List Char) : Prop :=
  ∃ c cs, Text.skipSpaces l = c :: cs ∧ c ≠ '\n' ∧ c ≠ '\t'

def indentOf (l : List Char) : ℕ := (l.takeWhile (· == ' ')).length

def IsFlush (l : List Char) : Prop := IsFilled l ∧ indentOf l = 0

theorem isFlush_cons {c : Char} (hc : c ∉ [' ', '\n', '\t']) (cs : List Char) :
    IsFlush (c :: cs) := by
  simp only [List.mem_cons, List.not_mem_nil, or_false, not_or] at hc
  obtain ⟨hspace, hline, htab⟩ := hc
  refine ⟨⟨c, cs, Token.skipSpaces_cons hspace cs, hline, htab⟩, ?_⟩
  rw [indentOf, List.takeWhile_cons, if_neg (by simpa using hspace)]
  rfl

theorem Token.IsRun.isFlush {cs : List Char} (h : IsRun cs) : IsFlush cs := by
  obtain ⟨c, ds, rfl, -, hc, -⟩ := exists_run h
  exact isFlush_cons hc ds

/-- The text of `v` is one token, and that is read as `r`. -/
structure Scalar.IsAtom (v r : Scalar) : Prop where
  flush : IsFlush v.write
  lexes : ∃ t, Token.Lexes v.write t ∧ t.scalar? = some r

theorem Scalar.isAtom_of_readTrimmed? {v r : Scalar}
    (hv : IsNumeral v.write ∨ v.write = "null".toList) (hr : readTrimmed? v.write = some r) :
    v.IsAtom r := by
  rcases hv with h | h
  · refine ⟨?_, _, Token.lexes_numeral h, (Token.scalar?_ofNumeral h).trans hr⟩
    obtain ⟨c, ds, hcs, hc, -⟩ := Token.exists_numeral h
    have hne {d : Char} (hd : d.isDigit = false) (hd' : '-' ≠ d) : c ≠ d := by
      rcases hc with hc | rfl
      · exact ne_of_isDigit hc hd
      · exact hd'
    rw [hcs]
    exact isFlush_cons (by simp [hne]) ds
  · rw [h] at hr
    constructor <;> rw [h]
    · exact isFlush_cons (by decide) _
    · exact ⟨.literal "null".toList, Token.lexes_run (by decide), hr⟩

end LinearAssignment.Toon
