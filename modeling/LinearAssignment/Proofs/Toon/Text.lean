import LinearAssignment.Proofs.Text.Trim
import LinearAssignment.Proofs.Toon.Token

/-!
Texts in documents: what a text is read as that stands alone on its line.

A text that is written as it is and does not begin with a digit is read word by word up to the
first space. White space at the end of that word is lost; all else comes back.
-/

namespace LinearAssignment.Toon.Scalar

open Token (Ends Reads)

variable {c : Char} {cs : List Char} {delimiter : Option Char}

/-- What is read of a text that has been written. -/
def regained (cs : List Char) : List Char :=
  if needsQuotes cs ∨ cs.head?.any Char.isDigit then cs
  else Text.trimRight (cs.takeWhile (· ≠ ' ')) ++ cs.dropWhile (· ≠ ' ')

theorem regained_eq_self_iff : regained cs = cs ↔
    needsQuotes cs = true ∨ cs.head?.any Char.isDigit = true ∨
      (cs.takeWhile (· ≠ ' ')).getLast?.any Text.isBlank = false := by
  rw [← or_assoc, ← Text.trimRight_eq_self_iff, regained]
  split_ifs with h
  · exact iff_of_true rfl (.inl h)
  · rw [or_iff_right h]
    nth_rewrite 3 [← List.takeWhile_append_dropWhile (p := (· ≠ ' ')) (l := cs)]
    exact List.append_left_inj _

/-! ### Texts that are no numbers -/

theorem isNumberChar_of_isDigit (h : c.isDigit = true) : Token.isNumberChar c = true := by
  rw [Token.isNumberChar, h, Bool.true_or]

theorem isNumberChar_of_readInteger? {i : ℤ} (h : Decimal.readInteger? cs = some i) :
    ∀ c ∈ cs, Token.isNumberChar c = true := by
  have hdigits {ds : List Char} (hd : Decimal.isDigits ds = true) :
      ∀ c ∈ ds, Token.isNumberChar c = true := fun c hc ↦
    isNumberChar_of_isDigit ((Decimal.isDigits_iff.mp hd).2 c hc)
  unfold Decimal.readInteger? at h
  split at h <;> split_ifs at h with hd
  · exact List.forall_mem_cons.mpr ⟨rfl, hdigits hd⟩
  · exact List.forall_mem_cons.mpr ⟨rfl, hdigits hd⟩
  · exact hdigits hd

theorem isNumberChar_of_readFraction {rest : List Char} (h : (Decimal.readFraction cs).2 = rest)
    (hrest : ∀ c ∈ rest, Token.isNumberChar c = true) : ∀ c ∈ cs, Token.isNumberChar c = true := by
  subst h
  unfold Decimal.readFraction at hrest
  split at hrest
  · next ds =>
    refine List.forall_mem_cons.mpr ⟨rfl, fun c hc ↦ ?_⟩
    rw [← List.takeWhile_append_dropWhile (p := Char.isDigit) (l := ds)] at hc
    rcases List.mem_append.mp hc with hc | hc
    · exact isNumberChar_of_isDigit (List.mem_takeWhile_imp hc)
    · exact hrest c hc
  · exact hrest

theorem isNumberChar_of_read? {d : Decimal} (h : Decimal.read? cs = some d) :
    ∀ c ∈ cs, Token.isNumberChar c = true := by
  unfold Decimal.read? at h
  dsimp only at h
  split_ifs at h
  have hrest : ∀ c ∈ cs.dropWhile Char.isDigit, Token.isNumberChar c = true := by
    refine isNumberChar_of_readFraction rfl ?_
    split at h
    · next he => rw [he]; exact nofun
    · next e exponent he =>
      split_ifs at h with hchar
      obtain ⟨i, hi, -⟩ := Option.map_eq_some_iff.mp h
      rw [he]
      refine List.forall_mem_cons.mpr ⟨?_, isNumberChar_of_readInteger? hi⟩
      rcases hchar with rfl | rfl <;> rfl
  intro c hc
  rw [← List.takeWhile_append_dropWhile (p := Char.isDigit) (l := cs)] at hc
  rcases List.mem_append.mp hc with hc | hc
  · exact isNumberChar_of_isDigit (List.mem_takeWhile_imp hc)
  · exact hrest c hc

/-- Only what looks like a number is one. -/
theorem readNumber?_eq_none (hc : c.isDigit = true) (hl : isNumberLike (c :: cs) = false) :
    readNumber? (c :: cs) = none := by
  have hall : ¬∀ d ∈ c :: cs, Token.isNumberChar d = true := fun h ↦ by
    refine Bool.false_ne_true (hl.symm.trans ?_)
    rw [isNumberLike, hc, Bool.true_and]
    exact List.all_eq_true.mpr (List.forall_mem_cons.mp h).2
  have hread : Decimal.read? (c :: cs) = none :=
    Option.eq_none_iff_forall_ne_some.mpr fun d hd ↦ hall (isNumberChar_of_read? hd)
  have hdigits : Decimal.isDigits (c :: cs) = false := Bool.eq_false_of_not_eq_true fun hd ↦
    hall fun d hm ↦ isNumberChar_of_isDigit ((Decimal.isDigits_iff.mp hd).2 d hm)
  rw [readNumber?, if_pos hc, readUnsigned?, hread, hdigits, if_neg Bool.false_ne_true]
  · split_ifs <;> rfl
  · exact Scalar.ne_of_isDigit hc rfl

/-! ### A text alone on its line -/

/-- The text of `v`, alone on its line, is read as `r`: a token and the text up to the line end. -/
def IsLine (v r : Scalar) : Prop := ∀ delimiter, IsWritten delimiter → ∀ rest : List Char,
  Token.LineEnds rest → ∃ t tail, Reads delimiter (v.write ++ rest) t (tail ++ rest) ∧
    t.text?.isSome = true ∧ (∀ c ∈ tail, c ≠ '\n') ∧ t.scalarWith? tail = some r

theorem isLine_quoted {s : String} (h : needsQuotes s.toList = true) :
    IsLine (.text s) (.text s) := by
  intro delimiter hd rest _
  refine ⟨.quoted s.toList, [], ?_, rfl, nofun, ?_⟩
  · have hwrite : (text s).write = '"' :: (s.toList.flatMap escapeChar ++ ['"']) := if_pos h
    have hquote : delimiter ≠ some '"' := by rcases hd with rfl | rfl <;> simp
    have hread := unquote?_escape s.toList rest
    rw [hwrite, Reads, List.cons_append, List.append_assoc, Token.skipSpaces_cons (by decide),
      Token.scan?, if_neg (by decide), if_neg (by decide), if_neg (by simp), if_neg (by decide),
      if_neg hquote, if_pos rfl, List.singleton_append, hread]
    rfl
  · change some (text (String.ofList s.toList)) = _
    rw [String.ofList_toList]

/-- What is written as it is consists of characters without a meaning of their own. -/
theorem bare_iff : needsQuotes cs = false ↔ cs ≠ [] ∧ isLiteral cs = false ∧
    isNumberLike cs = false ∧ hasLeadingZero cs = false ∧ (∀ c ∈ cs, isStructural c = false) ∧
      Text.isTrimmed cs = true := by
  simp [needsQuotes, and_assoc]

theorem ne_of_bare (hb : needsQuotes cs = false) (hc : c ∈ cs) {d : Char}
    (hd : isStructural d = true) : c ≠ d := by
  rintro rfl
  obtain ⟨-, -, -, -, hplain, -⟩ := bare_iff.mp hb
  exact Bool.false_ne_true ((hplain c hc).symm.trans hd)

theorem ne_space_of_bare (hb : needsQuotes (c :: cs) = false) : c ≠ ' ' := by
  rintro rfl
  obtain ⟨-, -, -, -, -, htrim⟩ := bare_iff.mp hb
  cases (Text.isTrimmed_iff.mp htrim).1

theorem isEnd_eq (hd : IsWritten delimiter) (hc : isStructural c = false) :
    Token.isEnd delimiter c = (c == ' ') := by
  obtain ⟨hline, hmark, hcomma⟩ : c ≠ '\n' ∧ Token.isMark c = false ∧ ',' ≠ c := by
    simp_all [isStructural, Token.isMark, eq_comm (a := ',')]
  rw [beq_eq_decide]
  obtain rfl | rfl := hd <;> simp [Token.isEnd, hline, hmark, hcomma]

/-- A token and more text behind it are read once more, and together they are the text. -/
theorem scalarWith?_tail {t : Token} {ds tail : List Char} (ht : t.chars? = some ds)
    (hne : tail ≠ []) (htrim : Text.isTrimmed (ds ++ tail) = true)
    (hq : (ds ++ tail).head? ≠ some '"') (hl : isLiteral (ds ++ tail) = false)
    (hn : readNumber? (ds ++ tail) = none) :
    t.scalarWith? tail = some (.text (String.ofList (ds ++ tail))) := by
  have hlast : tail.getLast?.any Text.isBlank = false := by
    rw [← List.getLast?_append_of_ne_nil ds hne]
    exact (Text.isTrimmed_iff.mp htrim).2
  have htail : (Text.trimRight tail).isEmpty = false :=
    List.isEmpty_eq_false_iff.mpr (Text.trimRight_ne_nil hlast hne)
  rw [Token.scalarWith?, if_neg (by simp [htail]), ht, Option.bind_some, read?,
    Text.trim_of_isTrimmed htrim, readTrimmed?_of_bare hq hl, hn, Option.getD_none]

theorem chars?_ofNumberChars (delimiter : Option Char) (cs rest : List Char) :
    (Token.ofNumberChars delimiter cs rest).chars? = some cs ∧
      (Token.ofNumberChars delimiter cs rest).text?.isSome = true := by
  unfold Token.ofNumberChars
  split_ifs <;> exact ⟨rfl, rfl⟩

/-- A text that is written as it is, from its first token and what follows that on the line. -/
theorem isLine_bare {s : String} {tail : List Char} {r : Scalar} (hs : s.toList = c :: cs)
    (hb : needsQuotes (c :: cs) = false) (htail : tail.Sublist cs)
    (h : ∀ delimiter, IsWritten delimiter → ∀ rest, Token.LineEnds rest →
      ∃ t, Token.scan? delimiter (c :: (cs ++ rest)) = some (t, tail ++ rest) ∧
        t.text?.isSome = true ∧ t.scalarWith? tail = some r) : IsLine (.text s) r := by
  intro delimiter hd rest hrest
  obtain ⟨t, hscan, htext, hr⟩ := h delimiter hd rest hrest
  have hwrite : (text s).write = c :: cs := (congrArg writeText hs).trans (if_neg (by simp [hb]))
  refine ⟨t, tail, ?_, htext, fun d hm ↦ ?_, hr⟩
  · rw [hwrite, Reads, List.cons_append, Token.skipSpaces_cons (ne_space_of_bare hb), hscan]
  · exact ne_of_bare hb (List.mem_cons_of_mem _ (htail.subset hm)) rfl

/-- The numeral at the beginning of a text that is no number is not all of it. -/
theorem dropWhile_isNumberChar_ne_nil (hb : needsQuotes (c :: cs) = false)
    (hc : c.isDigit = true) : cs.dropWhile Token.isNumberChar ≠ [] := by
  intro hnil
  obtain ⟨-, -, hlike, -⟩ := bare_iff.mp hb
  rw [List.dropWhile_eq_nil_iff] at hnil
  refine Bool.false_ne_true (hlike.symm.trans ?_)
  rw [isNumberLike, hc, Bool.true_and]
  exact List.all_eq_true.mpr hnil

theorem isLine_digit {s : String} (hs : s.toList = c :: cs) (hb : needsQuotes (c :: cs) = false)
    (hc : c.isDigit = true) : IsLine (.text s) (.text s) := by
  obtain ⟨-, hl, hlike, -, -, htrim⟩ := bare_iff.mp hb
  have hne := dropWhile_isNumberChar_ne_nil hb hc
  set run := cs.takeWhile Token.isNumberChar with hrun
  set tail := cs.dropWhile Token.isNumberChar with htail
  have happend : run ++ tail = cs := List.takeWhile_append_dropWhile
  have hsame : (c :: run) ++ tail = c :: cs := by rw [List.cons_append, happend]
  have hsublist : tail.Sublist cs := List.dropWhile_sublist _
  refine isLine_bare hs hb hsublist fun delimiter _ rest _ ↦ ?_
  have hstop : Text.Stops Token.isNumberChar (tail ++ rest) := by
    obtain ⟨d, ds, hds, hd⟩ := (Text.dropWhile_cases _ _).resolve_left hne
    rw [htail, hds]
    exact Text.stops_cons.mpr hd
  obtain ⟨hchars, htext⟩ := chars?_ofNumberChars delimiter (c :: run) (tail ++ rest)
  -- More than the numeral is there, so all of it is read once more as one text.
  refine ⟨_, ?_, htext, ?_⟩
  · rw [← happend, List.append_assoc]
    exact Token.scan?_numeral (.inl hc) (fun h ↦ absurd h (ne_of_isDigit hc rfl))
      (fun d hm ↦ List.mem_takeWhile_imp hm) hstop
  · have hq : (c :: cs).head? ≠ some '"' := by simpa using ne_of_isDigit hc rfl
    have hsome := scalarWith?_tail hchars hne (hsame ▸ htrim) (hsame ▸ hq) (hsame ▸ hl)
      (hsame ▸ readNumber?_eq_none hc hlike)
    rw [hsome, hsame, ← hs, String.ofList_toList]

theorem ofWordChars_eq (h : cs ≠ ['\t']) : Token.ofWordChars cs =
    if isLiteral (Text.trimRight cs) then .literal (Text.trimRight cs)
    else .word (Text.trimRight cs) := by
  rw [Token.ofWordChars, if_neg h]

theorem chars?_ofWordChars (h : cs ≠ ['\t']) :
    (Token.ofWordChars cs).chars? = some (Text.trimRight cs) ∧
      (Token.ofWordChars cs).text?.isSome = true := by
  rw [ofWordChars_eq h]
  split_ifs <;> exact ⟨rfl, rfl⟩

theorem isLiteral_of_space (h : ' ' ∈ cs) : isLiteral cs = false := by
  refine Bool.eq_false_of_not_eq_true fun hl ↦ ?_
  simp only [isLiteral, Bool.or_eq_true, decide_eq_true_eq] at hl
  rcases hl with (rfl | rfl) | rfl <;> exact absurd h (by decide)

theorem readNumber?_cons (hc : c.isDigit = false) (hdash : c ≠ '-') (cs : List Char) :
    readNumber? (c :: cs) = none := by
  rw [readNumber?, hc, if_neg Bool.false_ne_true]
  exact hdash

/-- The first word of a text, and all that follows it. -/
theorem scalarWith?_word {w tail : List Char} (hb : needsQuotes (c :: (w ++ tail)) = false)
    (hc : c.isDigit = false) (htail : tail = [] ∨ ∃ ds, tail = ' ' :: ds) :
    (Token.ofWordChars (c :: w)).scalarWith? tail =
      some (.text (String.ofList (Text.trimRight (c :: w) ++ tail))) := by
  obtain ⟨-, hl, -, -, -, htrim⟩ := bare_iff.mp hb
  obtain ⟨hhead, hlast⟩ := Text.isTrimmed_iff.mp htrim
  have hne {d : Char} (hd : isStructural d = true) : c ≠ d :=
    ne_of_bare hb List.mem_cons_self hd
  have htab : c :: w ≠ ['\t'] := fun h ↦ hne rfl (List.cons_eq_cons.mp h).1
  rcases htail with rfl | ⟨ds, rfl⟩
  · -- Alone the word stands to the end of the text, which is trimmed.
    rw [List.append_nil] at hl hlast ⊢
    rw [ofWordChars_eq htab, Text.trimRight_eq_self_iff.mpr hlast, hl, if_neg Bool.false_ne_true]
    rfl
  · obtain ⟨w', hw'⟩ := Text.exists_trimRight_cons hhead w
    have hlast' : (c :: w' ++ ' ' :: ds).getLast?.any Text.isBlank = false := by
      rw [← List.cons_append] at hlast
      rwa [List.getLast?_append_of_ne_nil _ (List.cons_ne_nil _ _)] at hlast ⊢
    rw [hw']
    refine scalarWith?_tail ((chars?_ofWordChars htab).1.trans (congrArg some hw'))
      (List.cons_ne_nil _ _) (Text.isTrimmed_iff.mpr ⟨hhead, hlast'⟩) ?_
      (isLiteral_of_space (by simp)) (readNumber?_cons hc (hne rfl) _)
    simpa using hne rfl

theorem dropWhile_space (cs : List Char) :
    cs.dropWhile (· ≠ ' ') = [] ∨ ∃ ds, cs.dropWhile (· ≠ ' ') = ' ' :: ds := by
  rcases Text.dropWhile_cases (· ≠ ' ') cs with h | ⟨d, ds, h, hd⟩
  · exact .inl h
  · obtain rfl : d = ' ' := by simpa using hd
    exact .inr ⟨ds, h⟩

/-- The first word of a text ends at the first space, or with the line. -/
theorem scan?_firstWord (hd : IsWritten delimiter) (hb : needsQuotes (c :: cs) = false)
    (hc : c.isDigit = false) {rest : List Char} (hrest : Token.LineEnds rest) :
    Token.scan? delimiter (c :: (cs ++ rest)) =
      some (.ofWordChars (c :: cs.takeWhile (· ≠ ' ')), cs.dropWhile (· ≠ ' ') ++ rest) := by
  obtain ⟨-, -, -, -, hplain, -⟩ := bare_iff.mp hb
  have hne {d : Char} (hd : isStructural d = true) : c ≠ d := ne_of_bare hb List.mem_cons_self hd
  have hends : Token.Ends delimiter (cs.dropWhile (· ≠ ' ') ++ rest) := by
    rcases dropWhile_space cs with h | ⟨ds, h⟩
    · rw [h]
      exact hrest.ends
    · rw [h]
      exact Token.ends_cons.mpr rfl
  have hrun : ∀ d ∈ c :: cs.takeWhile (· ≠ ' '), Token.isEnd delimiter d = false := by
    intro d hm
    have hmem : d ∈ c :: cs ∧ d ≠ ' ' := by
      rcases List.mem_cons.mp hm with rfl | hm
      · exact ⟨List.mem_cons_self, ne_space_of_bare hb⟩
      · exact ⟨List.mem_cons_of_mem _ ((List.takeWhile_sublist _).subset hm),
          by simpa using List.mem_takeWhile_imp hm⟩
    rw [isEnd_eq hd (hplain d hmem.1), beq_eq_false_iff_ne]
    exact hmem.2
  have hscan := Token.scan?_word ⟨hc, hne rfl, hne rfl⟩ hrun hends
  rwa [← List.append_assoc, List.takeWhile_append_dropWhile] at hscan

theorem regained_word (hb : needsQuotes (c :: cs) = false) (hc : c.isDigit = false) :
    regained (c :: cs) =
      Text.trimRight (c :: cs.takeWhile (· ≠ ' ')) ++ cs.dropWhile (· ≠ ' ') := by
  have hspace : c ≠ ' ' := ne_space_of_bare hb
  rw [regained, if_neg (by simp [hb, hc]), List.takeWhile_cons, List.dropWhile_cons,
    if_pos (by simpa using hspace), if_pos (by simpa using hspace)]

theorem isLine_word {s : String} (hs : s.toList = c :: cs) (hb : needsQuotes (c :: cs) = false)
    (hc : c.isDigit = false) : IsLine (.text s) (.text (String.ofList (regained s.toList))) := by
  have happend : cs.takeWhile (· ≠ ' ') ++ cs.dropWhile (· ≠ ' ') = cs :=
    List.takeWhile_append_dropWhile
  have htab : c :: cs.takeWhile (· ≠ ' ') ≠ ['\t'] := fun h ↦
    ne_of_bare hb List.mem_cons_self rfl (List.cons_eq_cons.mp h).1
  refine isLine_bare hs hb (List.dropWhile_sublist (· ≠ ' ')) fun delimiter hd rest hrest ↦
    ⟨_, scan?_firstWord hd hb hc hrest, (chars?_ofWordChars htab).2, ?_⟩
  rw [scalarWith?_word (happend.symm ▸ hb) hc (dropWhile_space cs), hs, regained_word hb hc]

/-- A text alone on its line is read, but for the white space at the end of its first word. -/
theorem isLine_text (s : String) :
    IsLine (.text s) (.text (String.ofList (regained s.toList))) := by
  have hself (h : regained s.toList = s.toList) : String.ofList (regained s.toList) = s := by
    rw [h, String.ofList_toList]
  cases hb : needsQuotes s.toList with
  | true =>
    rw [hself (regained_eq_self_iff.mpr (.inl hb))]
    exact isLine_quoted hb
  | false =>
    cases hs : s.toList with
    | nil => exact absurd hs (bare_iff.mp hb).1
    | cons c cs =>
      cases hc : c.isDigit with
      | true =>
        rw [← hs, hself (regained_eq_self_iff.mpr (.inr (.inl (by simp [hs, hc]))))]
        exact isLine_digit hs (hs ▸ hb) hc
      | false => exact hs ▸ isLine_word hs (hs ▸ hb) hc

/-- So is a scalar that is one token. -/
theorem isLine_of_lexes {v r : Scalar} {t : Token} (h : Token.Lexes v.write t)
    (ht : t.scalar? = some r) : IsLine v r := by
  intro delimiter hd rest hrest
  refine ⟨t, [], h delimiter hd rest hrest.ends, ?_, nofun, ?_⟩
  · cases t <;> first | rfl | cases ht
  · exact ht

end LinearAssignment.Toon.Scalar
