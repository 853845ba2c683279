import Mathlib
import ChartNet.Phrase.Meaning
import ChartNet.Phrase.Parser
import ChartNet.Expr.Printer

/-!
# Cutting written text

Text that is put together from words, numerals, operators and single blanks is **cut** into just
these again. `Cuts` leaves the places of tokens open, since nothing but messages depends on them. A
word or a numeral must be followed by a character that cannot continue it; in written text it is
always one of a few, and `Ends` says so.
-/

namespace ChartNet.Token

/-- A **lexeme**: the kind of a token and its text. -/
abbrev Lexeme := TokenKind × String

/-- The lexeme of a token. -/
def lex (t : Token) : Lexeme := (t.kind, t.text)

/-- Characters are **cut** into lexemes, and there is no junk between them. -/
def Cuts (cs : List Char) (ls : List Lexeme) : Prop :=
  ∀ here, (cutFrom here cs).junk = [] ∧ (cutFrom here cs).tokens.map lex = ls

theorem cuts_nil : Cuts [] [] := fun here => by simp [cutFrom]

/-- A blank before a lexeme changes nothing. -/
theorem Cuts.blank {c : Char} {cs : List Char} {ls : List Lexeme} (h : Cuts (c :: cs) ls)
    (hc : Text.isBlank c = false) : Cuts (' ' :: c :: cs) ls := by
  intro here
  rw [cutFrom, if_pos (by decide), List.dropWhile_cons_of_neg (by simp [hc])]
  exact h _

/-- A lexeme at the start is cut off. -/
theorem Cuts.token {c : Char} {cs : List Char} {kind : TokenKind} {ls : List Lexeme}
    (h : Cuts cs ls) (text : List Char) (hblank : Text.isBlank c = false)
    (hlexeme : lexeme? (c :: (text ++ cs)) = some (kind, text.length + 1)) :
    Cuts (c :: (text ++ cs)) ((kind, String.ofList (c :: text)) :: ls) := by
  intro here
  rw [cutFrom, if_neg (by simp [hblank]), hlexeme]
  obtain ⟨hjunk, htokens⟩ := h (here.after (c :: text))
  have htake : (c :: (text ++ cs)).take (text.length + 1) = c :: text := by simp
  simp [htake, hjunk, htokens, lex]

/-! ### Operators -/

variable {cs : List Char} {ls : List Lexeme}

/-- The **marks** of written text: operators of one character with which no other token starts. -/
def marks : List (Char × TokenKind) :=
  [('(', .leftParen), (')', .rightParen), ('[', .leftBracket), (']', .rightBracket), (',', .comma),
    ('?', .question), (':', .colon), ('-', .minus)]

/-- A mark is cut off, whatever comes after it. -/
theorem Cuts.mark {c : Char} {kind : TokenKind} (h : Cuts cs ls) (hmark : (c, kind) ∈ marks) :
    Cuts (c :: cs) ((kind, String.ofList [c]) :: ls) := by
  simp only [marks, List.mem_cons, Prod.mk.injEq, List.not_mem_nil, or_false] at hmark
  rcases hmark with ⟨rfl, rfl⟩ | ⟨rfl, rfl⟩ | ⟨rfl, rfl⟩ | ⟨rfl, rfl⟩ | ⟨rfl, rfl⟩ | ⟨rfl, rfl⟩ |
    ⟨rfl, rfl⟩ | ⟨rfl, rfl⟩ <;> exact h.token [] (by decide) rfl

theorem Cuts.dot (h : Cuts cs ls) (hcs : ∀ c ∈ cs.head?, c.isDigit = false) :
    Cuts ('.' :: cs) ((.dot, ".") :: ls) := by
  refine h.token [] (by decide) ?_
  have hdigits : digitLength cs = 0 := by
    cases cs with
    | nil => rfl
    | cons c cs => simp [digitLength, hcs c (by simp)]
  have hnumber : numberLength ('.' :: cs) = 0 := by
    have hmantissa : mantissaLength ('.' :: cs) = 0 := by
      rw [mantissaLength, show digitLength ('.' :: cs) = 0 from rfl]
      simp [hdigits]
    simp only [numberLength, hmantissa]
  rw [List.nil_append, lexeme?, hnumber]
  rfl

theorem Cuts.bang (h : Cuts cs ls) (hcs : ∀ c ∈ cs.head?, c ≠ '=') :
    Cuts ('!' :: cs) ((.bang, "!") :: ls) := by
  refine h.token [] (by decide) ?_
  cases cs with
  | nil => rfl
  | cons c cs =>
    have hc : c ≠ '=' := hcs c (by simp)
    have hnumber : numberLength ('!' :: c :: cs) = 0 := rfl
    rw [List.nil_append, lexeme?, hnumber]
    simp [startsWord, operators, hc.symm]

/-- A lexeme between two blanks is cut off. -/
private theorem Cuts.spaced {c : Char} {kind : TokenKind} (h : Cuts (' ' :: cs) ls)
    (text : List Char) (hblank : Text.isBlank c = false)
    (hlexeme : lexeme? (c :: (text ++ ' ' :: cs)) = some (kind, text.length + 1)) :
    Cuts (' ' :: c :: (text ++ ' ' :: cs)) ((kind, String.ofList (c :: text)) :: ls) :=
  (h.token text hblank hlexeme).blank hblank

/-- An operator between two blanks is cut off as the token of its level. -/
theorem cuts_infix {op : BinaryOp} {n : Nat} {symbol : String}
    (h : op.infixForm? = some (n, symbol)) :
    ∃ kind : TokenKind, kind.binaryOp? = some op ∧ Phrase.isBinary (8 - n) kind = true ∧
      ∀ {cs ls}, Cuts (' ' :: cs) ls →
        Cuts (' ' :: (symbol.toList ++ ' ' :: cs)) ((kind, symbol) :: ls) := by
  cases op <;> cases h
  case or => exact ⟨.orOr, rfl, rfl, fun h => h.spaced ['|'] (by decide) rfl⟩
  case and => exact ⟨.andAnd, rfl, rfl, fun h => h.spaced ['&'] (by decide) rfl⟩
  case eq => exact ⟨.equals, rfl, rfl, fun h => h.spaced ['='] (by decide) rfl⟩
  case ne => exact ⟨.notEquals, rfl, rfl, fun h => h.spaced ['='] (by decide) rfl⟩
  case lt => exact ⟨.less, rfl, rfl, fun h => h.spaced [] (by decide) rfl⟩
  case le => exact ⟨.lessEquals, rfl, rfl, fun h => h.spaced ['='] (by decide) rfl⟩
  case gt => exact ⟨.greater, rfl, rfl, fun h => h.spaced [] (by decide) rfl⟩
  case ge => exact ⟨.greaterEquals, rfl, rfl, fun h => h.spaced ['='] (by decide) rfl⟩
  case add => exact ⟨.plus, rfl, rfl, fun h => h.spaced [] (by decide) rfl⟩
  case sub => exact ⟨.minus, rfl, rfl, fun h => h.spaced [] (by decide) rfl⟩
  case mul => exact ⟨.star, rfl, rfl, fun h => h.spaced [] (by decide) rfl⟩
  case div => exact ⟨.slash, rfl, rfl, fun h => h.spaced [] (by decide) rfl⟩
  case mod => exact ⟨.percent, rfl, rfl, fun h => h.spaced [] (by decide) rfl⟩

/-! ### Words -/

/-- Characters that a written word or numeral is followed by. -/
def endings : List Char := [' ', ')', ']', ',', '[', '(']

/-- What comes next **ends** a word or a numeral. -/
def Ends (cs : List Char) : Prop := ∀ c ∈ cs.head?, c ∈ endings

/-- Characters are a **word**. -/
def IsWord : List Char → Prop
  | [] => False
  | c :: cs => startsWord c = true ∧ ∀ d ∈ cs, continuesWord d = true

instance : DecidablePred IsWord
  | [] => inferInstanceAs (Decidable False)
  | c :: cs => @instDecidableAnd (startsWord c = true) _ inferInstance
      (List.decidableBAll (fun d => continuesWord d = true) cs)

/-- A run of characters ends before one that does not belong to it. -/
private theorem takeWhile_append {p : Char → Bool} {ds cs : List Char} (hds : ∀ c ∈ ds, p c = true)
    (hcs : ∀ c ∈ cs.head?, p c = false) : (ds ++ cs).takeWhile p = ds := by
  rw [List.takeWhile_append_of_pos hds]
  cases cs with
  | nil => simp
  | cons c cs => simp [hcs c (by simp)]

/-- A character that starts a word is a letter, or one of two signs. -/
private theorem toNat_of_startsWord {c : Char} (h : startsWord c = true) :
    65 ≤ c.toNat ∧ c.toNat ≤ 90 ∨ 97 ≤ c.toNat ∧ c.toNat ≤ 122 ∨ c.toNat = 95 ∨ c.toNat = 36 := by
  simp only [startsWord, Bool.or_eq_true, beq_iff_eq, Char.isAlpha, Char.isUpper, Char.isLower,
    Bool.and_eq_true, decide_eq_true_eq, UInt32.le_iff_toNat_le, ge_iff_le] at h
  rcases h with ((h | h) | rfl) | rfl
  · exact .inl h
  · exact .inr (.inl h)
  · exact .inr (.inr (.inl rfl))
  · exact .inr (.inr (.inr rfl))

theorem isBlank_of_startsWord {c : Char} (h : startsWord c = true) :
    Text.isBlank c = false := by
  have hrange := toNat_of_startsWord h
  simp only [Text.isBlank, Text.blankRanges, List.any_cons, List.any_nil, Bool.or_false,
    Bool.or_eq_false_iff, Bool.and_eq_false_iff, decide_eq_false_iff_not]
  omega

theorem isDigit_of_startsWord {c : Char} (h : startsWord c = true) : c.isDigit = false := by
  have hrange := toNat_of_startsWord h
  simp only [Char.isDigit, Bool.and_eq_false_iff, decide_eq_false_iff_not, ge_iff_le,
    UInt32.le_iff_toNat_le]
  change ¬ 48 ≤ c.toNat ∨ ¬ c.toNat ≤ 57
  omega

private theorem mantissaLength_of_digitLength_eq_zero {cs : List Char} (h : digitLength cs = 0)
    (hdot : ∀ ds, cs ≠ '.' :: ds) : mantissaLength cs = 0 := by
  unfold mantissaLength
  simp only [h]

/-- A word is cut off before a character that does not continue it. -/
theorem Cuts.word {w : List Char} (hw : IsWord w) (h : Cuts cs ls)
    (hcs : ∀ c ∈ cs.head?, continuesWord c = false) :
    Cuts (w ++ cs) ((wordKind w, String.ofList w) :: ls) := by
  cases w with
  | nil => exact hw.elim
  | cons c w =>
    obtain ⟨hc, hw⟩ := hw
    refine h.token w (isBlank_of_startsWord hc) ?_
    have hquote : ¬ (c = '"' ∨ c = '\'') := by
      rintro (rfl | rfl) <;> exact absurd hc (by decide)
    have hdot : c ≠ '.' := by
      rintro rfl
      exact absurd hc (by decide)
    have hnumber : numberLength (c :: (w ++ cs)) = 0 := by
      have hdigits : digitLength (c :: (w ++ cs)) = 0 := by
        simp [digitLength, isDigit_of_startsWord hc]
      have hmantissa : mantissaLength (c :: (w ++ cs)) = 0 := by
        rw [mantissaLength_of_digitLength_eq_zero hdigits]
        rintro ds ⟨⟩
        exact hdot rfl
      simp only [numberLength, hmantissa]
    have hword : (c :: (w ++ cs)).takeWhile continuesWord = c :: w := by
      have hall : ∀ d ∈ c :: w, continuesWord d = true :=
        List.forall_mem_cons.2 ⟨by simp [continuesWord, hc], hw⟩
      rw [← List.cons_append, takeWhile_append hall hcs]
    rw [lexeme?, if_neg hquote, hnumber]
    simp [hc, hword]

/-! ### Numerals -/

/-- Characters are digits, at least one. -/
def IsDigits (ds : List Char) : Prop := ds ≠ [] ∧ ∀ c ∈ ds, c.isDigit = true

theorem isBlank_of_isDigit {c : Char} (h : c.isDigit = true) : Text.isBlank c = false := by
  simp only [Char.isDigit, Bool.and_eq_true, decide_eq_true_eq, ge_iff_le,
    UInt32.le_iff_toNat_le] at h
  change 48 ≤ c.toNat ∧ c.toNat ≤ 57 at h
  simp only [Text.isBlank, Text.blankRanges, List.any_cons, List.any_nil, Bool.or_false,
    Bool.or_eq_false_iff, Bool.and_eq_false_iff, decide_eq_false_iff_not]
  omega

/-- Characters are a **numeral**: digits, then perhaps a point with digits, then perhaps a signed
exponent. -/
structure IsNumeral (cs : List Char) (front fraction exponent : List Char) : Prop where
  eq : cs = front ++ fraction ++ exponent
  front : IsDigits front
  fraction : fraction = [] ∨ ∃ ds, fraction = '.' :: ds ∧ IsDigits ds
  exponent : exponent = [] ∨
    ∃ sign ds, exponent = 'e' :: sign :: ds ∧ (sign = '+' ∨ sign = '-') ∧ IsDigits ds

private theorem ends_cases {c : Char} (h : c ∈ endings) :
    c.isDigit = false ∧ continuesWord c = false ∧ c ≠ '.' ∧ c ≠ 'e' ∧ c ≠ 'E' := by
  simp only [endings, List.mem_cons, List.not_mem_nil, or_false] at h
  rcases h with rfl | rfl | rfl | rfl | rfl | rfl <;> decide

theorem Ends.continuesWord (h : Ends cs) : ∀ c ∈ cs.head?, continuesWord c = false :=
  fun c hc => (ends_cases (h c hc)).2.1

/-- Digits in front of something else are counted. -/
private theorem digitLength_append {ds cs : List Char} (hds : ∀ c ∈ ds, c.isDigit = true)
    (hcs : ∀ c ∈ cs.head?, c.isDigit = false) : digitLength (ds ++ cs) = ds.length := by
  rw [digitLength, takeWhile_append hds hcs]

private theorem mantissaLength_point {front ds cs : List Char} (hfront : IsDigits front)
    (hds : ∀ c ∈ ds, c.isDigit = true) (hcs : ∀ c ∈ cs.head?, c.isDigit = false) :
    mantissaLength (front ++ '.' :: (ds ++ cs)) = front.length + 1 + ds.length := by
  have hpos : front.length ≠ 0 := by simpa using hfront.1
  have hlength : digitLength (front ++ '.' :: (ds ++ cs)) = front.length :=
    digitLength_append hfront.2 (by rintro c ⟨⟩; decide)
  unfold mantissaLength
  rw [hlength]
  split
  · rename_i hzero
    exact absurd hzero hpos
  · rw [List.drop_left]
    simp only [digitLength_append hds hcs]

private theorem mantissaLength_digits {front cs : List Char} (hfront : IsDigits front)
    (hcs : ∀ c ∈ cs.head?, c.isDigit = false ∧ c ≠ '.') :
    mantissaLength (front ++ cs) = front.length := by
  have hpos : front.length ≠ 0 := by simpa using hfront.1
  have hlength := digitLength_append hfront.2 fun c hc => (hcs c hc).1
  unfold mantissaLength
  rw [hlength]
  split
  · rename_i hzero
    exact absurd hzero hpos
  · rw [List.drop_left]
    split
    · exact absurd rfl (hcs '.' rfl).2
    · rfl

/-- The exponent of a numeral is measured. -/
private theorem exponentLength_append {exponent : List Char}
    (h : exponent = [] ∨
      ∃ sign ds, exponent = 'e' :: sign :: ds ∧ (sign = '+' ∨ sign = '-') ∧ IsDigits ds)
    (hcs : Ends cs) : exponentLength (exponent ++ cs) = exponent.length := by
  rcases h with rfl | ⟨sign, ds, rfl, hsign, hne, hds⟩
  · cases cs with
    | nil => rfl
    | cons c cs =>
      obtain ⟨-, -, -, he, hE⟩ := ends_cases (hcs c (by simp))
      simp [exponentLength, he, hE]
  · have hdigits := digitLength_append hds fun c hc => (ends_cases (hcs c hc)).1
    have hpos : ds.length ≠ 0 := by simpa using hne
    simp [exponentLength, hsign, hdigits, hpos]

/-- A numeral is measured as a whole. -/
private theorem numberLength_append {n front fraction exponent : List Char}
    (hn : IsNumeral n front fraction exponent) (hcs : Ends cs) :
    numberLength (n ++ cs) = n.length := by
  have htail : ∀ c ∈ (exponent ++ cs).head?, c.isDigit = false ∧ c ≠ '.' := by
    rcases hn.exponent with rfl | ⟨sign, ds, rfl, -⟩
    · exact fun c hc => ⟨(ends_cases (hcs c hc)).1, (ends_cases (hcs c hc)).2.2.1⟩
    · rintro c hc
      obtain rfl := Option.some.inj (Option.mem_def.1 hc)
      decide
  have hmantissa : mantissaLength (n ++ cs) = (front ++ fraction).length := by
    rw [hn.eq, List.append_assoc, List.append_assoc]
    rcases hn.fraction with rfl | ⟨ds, rfl, -, hds⟩
    · rw [List.nil_append, mantissaLength_digits hn.front htail, List.append_nil]
    · rw [List.cons_append, mantissaLength_point hn.front hds fun c hc => (htail c hc).1]
      simp only [List.length_append, List.length_cons]
      omega
  have hpos : (front ++ fraction).length ≠ 0 := by simp [hn.front.1]
  have hdrop : (n ++ cs).drop (front ++ fraction).length = exponent ++ cs := by
    rw [hn.eq, List.append_assoc, List.drop_left]
  unfold numberLength
  rw [hmantissa]
  split
  · rename_i hzero
    exact absurd hzero hpos
  · rw [hdrop, exponentLength_append hn.exponent hcs, hn.eq, ← List.length_append]

/-- A numeral is cut off. -/
theorem Cuts.numeral {n front fraction exponent : List Char}
    (hn : IsNumeral n front fraction exponent) (h : Cuts cs ls) (hcs : Ends cs) :
    Cuts (n ++ cs) ((.number, String.ofList n) :: ls) := by
  have hnumber := numberLength_append hn hcs
  cases n with
  | nil => exact absurd hn.eq.symm (by simp [hn.front.1])
  | cons c n =>
    have hc : c.isDigit = true := by
      obtain ⟨d, ds, rfl⟩ := List.exists_cons_of_ne_nil hn.front.1
      have heq := hn.eq
      simp only [List.cons_append, List.cons.injEq] at heq
      rw [heq.1]
      exact hn.front.2 d (by simp)
    have hquote : ¬ (c = '"' ∨ c = '\'') := by
      rintro (rfl | rfl) <;> exact absurd hc (by decide)
    refine h.token n (isBlank_of_isDigit hc) ?_
    rw [lexeme?, if_neg hquote]
    rw [List.cons_append] at hnumber
    simp [hnumber]

end ChartNet.Token
