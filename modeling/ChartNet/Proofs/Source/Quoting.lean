import ChartNet.Proofs.Array.Padding
import ChartNet.Proofs.Source.RoundTrip

/-!
# Quoted texts

Every text has a **literal**: it is put between quotes, with a backslash before each quote and each
backslash, and line feeds, tabs and carriage returns are spelled. An int array stores the bytes of
this text, whatever characters it has: the literal fits if and only if there is room for the bytes,
the array holds them with zeros behind, and its length variable counts them. So two literals that
store the same array with the same length are literals of one text (`Source.stores_literal`).

A string token is read twice, once to find its end and once to take the backslashes out. Both follow
the text character by character, so `Quote.escape_cases` is all they need to know of the writing.
-/

namespace ChartNet

open Phrase (Whole)
open Token (Cuts lex)

/-! ### Writing literals -/

/-- The **quotes** that a string stands between. -/
inductive Quote where
  | single
  | double
deriving DecidableEq

namespace Quote

/-- The character of a quote. -/
def char : Quote → Char
  | single => '\''
  | double => '"'

/-- A character as it is **written** between quotes. -/
def escape (q : Quote) (c : Char) : List Char :=
  if c = '\\' ∨ c = q.char then ['\\', c]
  else if c = '\n' then ['\\', 'n']
  else if c = '\t' then ['\\', 't']
  else if c = '\r' then ['\\', 'r']
  else [c]

/-- The characters of a text as they are written between quotes. -/
def body (q : Quote) (text : List Char) : List Char := text.flatMap q.escape

/-- The **literal** of a text. -/
def literal (q : Quote) (text : String) : String :=
  String.ofList (q.char :: (q.body text.toList ++ [q.char]))

variable {q : Quote}

@[simp] theorem body_nil : q.body [] = [] := rfl

@[simp] theorem body_cons (c : Char) (cs : List Char) :
    q.body (c :: cs) = q.escape c ++ q.body cs := rfl

theorem toList_literal (text : String) :
    (q.literal text).toList = q.char :: (q.body text.toList ++ [q.char]) :=
  String.toList_ofList

theorem char_ne_backslash : q.char ≠ '\\' := by cases q <;> decide

/-- A character is written by a backslash with another character that stands for it, or as it is if
it means nothing else. -/
theorem escape_cases (q : Quote) (c : Char) :
    (∃ d, q.escape c = ['\\', d] ∧ Text.endsLine d = false ∧
      ∀ cs, unescape ('\\' :: d :: cs) = c :: unescape cs) ∨
    q.escape c = [c] ∧ c ≠ '\\' ∧ c ≠ q.char := by
  unfold escape
  split
  · rename_i h
    refine .inl ⟨c, rfl, ?_⟩
    cases q <;> rcases h with rfl | rfl <;> exact ⟨by decide, fun cs => rfl⟩
  · rename_i h
    rw [not_or] at h
    split
    · rename_i hc
      exact .inl ⟨'n', rfl, by decide, fun cs => hc ▸ rfl⟩
    split
    · rename_i hc
      exact .inl ⟨'t', rfl, by decide, fun cs => hc ▸ rfl⟩
    split
    · rename_i hc
      exact .inl ⟨'r', rfl, by decide, fun cs => hc ▸ rfl⟩
    exact .inr ⟨rfl, h⟩

/-- A string ends with the first of its quotes. -/
theorem stringLength_quote (rest : List Char) :
    Token.stringLength q.char (q.char :: rest) = some 1 := by
  simp [Token.stringLength.eq_def]

/-- Other characters than quotes and backslashes belong to a string as they are. -/
theorem stringLength_cons {c : Char} (cs : List Char) (hquote : c ≠ q.char)
    (hbackslash : c ≠ '\\') :
    Token.stringLength q.char (c :: cs) = (Token.stringLength q.char cs).map (· + 1) := by
  rw [Token.stringLength.eq_def]
  simp only [hquote, hbackslash, if_false]

/-- Other characters than backslashes stand for themselves. -/
theorem unescape_cons {c : Char} (cs : List Char) (hbackslash : c ≠ '\\') :
    unescape (c :: cs) = c :: unescape cs := by
  rw [unescape.eq_def]
  split <;> simp_all

/-- The closing quote of a literal is the first one that counts. -/
theorem stringLength_body (text rest : List Char) :
    Token.stringLength q.char (q.body text ++ q.char :: rest) =
      some ((q.body text).length + 1) := by
  induction text with
  | nil => exact stringLength_quote rest
  | cons c cs ih =>
    rw [body_cons, List.append_assoc]
    rcases q.escape_cases c with ⟨d, hwritten, hline, -⟩ | ⟨hwritten, hbackslash, hquote⟩
    · simp [hwritten, Token.stringLength, char_ne_backslash.symm, hline, ih]
    · rw [hwritten, List.singleton_append, stringLength_cons _ hquote hbackslash, ih]
      rfl

/-- **Reading the characters of a literal gives the text back.** -/
theorem unescape_body (text : List Char) : unescape (q.body text) = text := by
  induction text with
  | nil => rfl
  | cons c cs ih =>
    rw [body_cons]
    rcases q.escape_cases c with ⟨d, hwritten, -, hread⟩ | ⟨hwritten, hbackslash, -⟩
    · rw [hwritten, List.cons_append, List.singleton_append, hread, ih]
    · rw [hwritten, List.singleton_append, unescape_cons _ hbackslash, ih]

/-- A literal is cut off as one string token. -/
theorem cuts_literal (text : String) {cs : List Char} {ls : List Token.Lexeme} (h : Cuts cs ls) :
    Cuts ((q.literal text).toList ++ cs) ((.string, q.literal text) :: ls) := by
  have hquote : q.char = '"' ∨ q.char = '\'' := by cases q <;> simp [char]
  have hlength := stringLength_body (q := q) text.toList cs
  have hlexeme : Token.lexeme? (q.char :: (q.body text.toList ++ [q.char] ++ cs)) =
      some (.string, (q.body text.toList ++ [q.char]).length + 1) := by
    simp [Token.lexeme?, hquote, hlength]
  rw [toList_literal, literal, List.cons_append]
  exact h.token _ (by cases q <;> decide) hlexeme

/-- A literal stands for its text. -/
theorem stringValue_literal {t : Token} {text : String} (h : t.text = q.literal text) :
    t.stringValue = text := by
  rw [Token.stringValue, h, toList_literal, List.drop_one, List.tail_cons, List.dropLast_concat,
    unescape_body, String.ofList_toList]

end Quote

/-- A string token is a phrase by itself. -/
theorem Phrase.heads_string {t : Token} (ht : t.kind = .string) : Phrase.Heads [t] (.string t) :=
  heads_token (by simp [ht, isUnary]) fun _ _ => ⟨by simp, by rw [primary]; simp [ht]⟩

/-- **The literal of a text means the bytes of the text.** -/
theorem Source.read_literal (q : Quote) (text : String) :
    read (q.literal text) = .ok ⟨q.literal text, .literal .string (.ofText text)⟩ := by
  refine read_of_spells ⟨[(.string, q.literal text)], ⟨?_, fun _ => q.cuts_literal text⟩, ?_⟩
  · exact ⟨_, _, Quote.toList_literal text, by cases q <;> decide, by cases q <;> decide⟩
  · intro ts hts
    obtain ⟨t, ts', rfl, ht, hnil⟩ := List.map_eq_cons_iff.1 hts
    obtain rfl := List.map_eq_nil_iff.1 hnil
    obtain ⟨hkind, htext⟩ := Prod.mk.inj ht
    have hwhole : Whole [t] (.string t) := ((Phrase.heads_string hkind).fits.mono (by decide)).whole
    refine ⟨.string t, hwhole, ?_⟩
    rw [Phrase.meaning, Phrase.raw, Quote.stringValue_literal htext]
    rfl

/-! ### Bytes -/

namespace Text

/-- The **bytes** of a text: each character has one to four, as UTF-8 encodes it. -/
def bytes (text : String) : List UInt8 := text.toList.flatMap String.utf8EncodeChar

theorem toList_toUTF8 (text : String) : text.toUTF8.data.toList = bytes text := by
  conv_lhs => rw [← String.ofList_toList (s := text)]
  rw [String.toUTF8_eq_toByteArray, String.toByteArray_ofList, List.utf8Encode,
    List.data_toByteArray, bytes]

/-- Texts with the same bytes are equal. -/
theorem bytes_injective : Function.Injective bytes := by
  intro s t h
  rw [← toList_toUTF8, ← toList_toUTF8] at h
  exact String.toByteArray_inj.1 (ByteArray.ext (Array.toList_inj.1 h))

end Text

/-- A byte as an int array holds it. -/
def Element.ofByte (b : UInt8) : Element := .num (Float.ofNat b.toNat)

theorem Element.ofByte_injective : Function.Injective ofByte := by
  intro a b h
  have hsmall : ∀ c : UInt8, c.toNat < 2 ^ 53 := fun c => c.toNat_lt.trans (by norm_num)
  have hnum := congrArg Number.toNat? (Element.num.inj h)
  rw [Number.toNat?_ofNat (hsmall a), Number.toNat?_ofNat (hsmall b)] at hnum
  exact UInt8.toNat_inj.1 (Option.some.inj hnum)

theorem ArrayValue.ofText_eq (text : String) :
    ArrayValue.ofText text = ⟨.int, (Text.bytes text).map .ofByte⟩ := by
  rw [ofText, Text.toList_toUTF8]
  rfl

/-! ### Storing literals -/

section Storing

variable {bytes : List UInt8} {m : Nat} {value : ArrayValue}

/-- Bytes fit an int array that has room for them. -/
theorem ArrayValue.fit_bytes {pad : Bool} :
    (⟨.int, bytes.map .ofByte⟩ : ArrayValue).fit (.ofCaps .int [m]) pad = .ok value ↔
      bytes.length ≤ m ∧ value = ⟨.int, if pad then fillTo m (.num 0) (bytes.map .ofByte)
        else bytes.map .ofByte⟩ := by
  have hitems (items : List Element) :
      List.Forall₂ (FitsItem .int .int pad []) (bytes.map .ofByte) items ↔
        items = bytes.map .ofByte := by
    rw [List.forall₂_map_left_iff, ← List.forall₂_eq_eq_eq, List.forall₂_map_right_iff]
    have hitem : ∀ b fitted, FitsItem .int .int pad [] (.ofByte b) fitted ↔ fitted = .ofByte b := by
      simp [FitsItem, Element.ofByte]
    simp only [hitem]
    exact ⟨List.Forall₂.flip, List.Forall₂.flip⟩
  simp only [fit, ArrayShape.ofCaps, List.map_cons, List.map_nil, Result.map_eq_ok,
    fitElements_cons,
    hitems, exists_eq_left, List.length_map, Size.admits_whole, decide_eq_true_eq, Size.fill_whole,
    zeroElement]
  constructor
  · rintro ⟨_, ⟨hle, rfl⟩, rfl⟩
    exact ⟨hle, rfl⟩
  · rintro ⟨hle, rfl⟩
    exact ⟨_, ⟨hle, rfl⟩, rfl⟩

namespace Source

/-- A text **stores** an array, with some lengths, in a variable of a shape: the array is what the
text is parsed to for the variable, and the lengths are those before it was filled up. -/
def Stores (text : String) (shape : ArrayShape) (array : Expr) (lengths : List Element) : Prop :=
  parse text { shape := some shape } = .ok array ∧
    ∃ source value, read text = .ok source ∧ source.fit shape false = .ok value ∧
      value.lengths shape = .ok lengths

/-- A text stores one array with one list of lengths. -/
theorem Stores.unique {text : String} {shape : ArrayShape} {array array' : Expr}
    {lengths lengths' : List Element} (h : Stores text shape array lengths)
    (h' : Stores text shape array' lengths') : array = array' ∧ lengths = lengths' := by
  obtain ⟨hparse, source, value, hread, hfit, hlengths⟩ := h
  obtain ⟨hparse', source', value', hread', hfit', hlengths'⟩ := h'
  obtain rfl := Except.ok.inj (hread.symm.trans hread')
  obtain rfl := Except.ok.inj (hfit.symm.trans hfit')
  exact ⟨Except.ok.inj (hparse.symm.trans hparse'), Except.ok.inj (hlengths.symm.trans hlengths')⟩

/-- An int array is given the bytes of a literal, filled up, if it has room for them. -/
theorem parse_literal (q : Quote) (text : String) {e : Expr} :
    parse (q.literal text) { shape := some (.ofCaps .int [m]) } = .ok e ↔
      (Text.bytes text).length ≤ m ∧
        e = .array ⟨.int, fillTo m (.num 0) ((Text.bytes text).map .ofByte)⟩ := by
  have hfits : (.int : NumKind) = (ArrayShape.ofCaps .int [m]).base ∧
      (ArrayShape.ofCaps .int [m]).sizes.length = 1 := ⟨rfl, rfl⟩
  simp only [parse, read_literal, Result.bind_eq_ok, Except.ok.injEq, exists_eq_left', fit,
    ArrayValue.ofText_eq, ← hfits.1, hfits.2, ne_eq, not_true_eq_false, or_self,
      and_false, if_false,
    ArrayValue.fit_bytes, if_true, pure, Except.pure]
  constructor
  · rintro ⟨_, ⟨hle, rfl⟩, rfl⟩
    exact ⟨hle, rfl⟩
  · rintro ⟨hle, rfl⟩
    exact ⟨_, ⟨hle, rfl⟩, rfl⟩

/-- A literal that there is room for is stored with its bytes counted. -/
theorem stores_of_length_le (q : Quote) (text : String) (h : (Text.bytes text).length ≤ m) :
    Stores (q.literal text) (.ofCaps .int [m])
      (.array ⟨.int, fillTo m (.num 0) ((Text.bytes text).map .ofByte)⟩)
      [.num (Float.ofNat (Text.bytes text).length)] := by
  refine ⟨(parse_literal q text).2 ⟨h, rfl⟩, _, ⟨.int, (Text.bytes text).map .ofByte⟩,
    read_literal q text, ?_, ?_⟩
  · rw [ArrayValue.ofText_eq]
    simp only [fit, ArrayShape.ofCaps, List.map_cons, List.map_nil, List.length_singleton, ne_eq,
      not_true_eq_false, or_self, and_false, if_false]
    exact ArrayValue.fit_bytes.2 ⟨h, rfl⟩
  · rw [← List.length_map (f := Element.ofByte)]
    rfl

/-- A literal that is stored fits, and is stored as its bytes and their number. -/
theorem Stores.eq_of_literal {q : Quote} {text : String} {array : Expr} {lengths : List Element}
    (h : Stores (q.literal text) (.ofCaps .int [m]) array lengths) :
    array = .array ⟨.int, fillTo m (.num 0) ((Text.bytes text).map .ofByte)⟩ ∧
      lengths = [.num (Float.ofNat (Text.bytes text).length)] :=
  h.unique (stores_of_length_le q text ((parse_literal q text).1 h.1).1)

/-- **A quoted text is stored as its bytes, if there is room for them:** its literal is accepted for
an int array of capacity `m` if and only if the text has at most `m` bytes; then the array holds the
bytes with zeros behind, and the length variable is their number. Texts that are stored alike are
equal, as long as their bytes can be counted exactly. -/
theorem stores_literal (q : Quote) (text : String) (m : Nat) :
    ((∃ e, parse (q.literal text) { shape := some (.ofCaps .int [m]) } = .ok e) ↔
        (Text.bytes text).length ≤ m) ∧
      ((Text.bytes text).length ≤ m →
        Stores (q.literal text) (.ofCaps .int [m])
          (.array ⟨.int, (Text.bytes text).map .ofByte ++
            List.replicate (m - (Text.bytes text).length) (.num 0)⟩)
          [.num (Float.ofNat (Text.bytes text).length)]) ∧
      ∀ (q' : Quote) (text' : String) (array : Expr) (lengths : List Element),
        (Text.bytes text).length < 2 ^ 53 → (Text.bytes text').length < 2 ^ 53 →
        Stores (q.literal text) (.ofCaps .int [m]) array lengths →
        Stores (q'.literal text') (.ofCaps .int [m]) array lengths → text = text' := by
  refine ⟨?_, fun hroom => ?_, fun q' text' array lengths hsmall hsmall' h h' => ?_⟩
  · simp only [parse_literal, exists_and_left, exists_eq, and_true]
  · have hstored := stores_of_length_le q text hroom
    rwa [fillTo, List.length_map] at hstored
  · obtain ⟨harray, hlength⟩ := h.eq_of_literal
    obtain ⟨harray', hlength'⟩ := h'.eq_of_literal
    have hcount : (Text.bytes text).length = (Text.bytes text').length := by
      have hnum :=
        congrArg Number.toNat? (Element.num.inj (List.cons.inj (hlength.symm.trans hlength')).1)
      rwa [Number.toNat?_ofNat hsmall, Number.toNat?_ofNat hsmall', Option.some.injEq] at hnum
    -- With as many bytes in both, the zeros behind them begin at one place.
    have hfilled := congrArg ArrayValue.elements (Expr.array.inj (harray.symm.trans harray'))
    rw [fillTo, fillTo] at hfilled
    have hbytes := (List.append_inj hfilled (by simpa using hcount)).1
    exact Text.bytes_injective (List.map_injective_iff.2 Element.ofByte_injective hbytes)

/-- A text of six bytes: a backslash, a quote, a letter of two bytes, a tab and a line feed. With a
null character behind it fills the array alike, but its length is another. -/
theorem stores_literal_of_backslash :
    (Text.bytes "\\'é\t\n").length ≤ 7 ∧
      Stores "'\\\\\\'é\\t\\n'" (.ofCaps .int [7])
        (.array ⟨.int, [.num 92, .num 39, .num 195, .num 169, .num 9, .num 10, .num 0]⟩) [.num 6] ∧
      ¬ Stores "'\\\\\\'é\\t\\n\x00'" (.ofCaps .int [7])
        (.array ⟨.int, [.num 92, .num 39, .num 195, .num 169, .num 9, .num 10, .num 0]⟩)
        [.num 6] := by
  have hroom : (Text.bytes "\\'é\t\n").length ≤ 7 := by decide +kernel
  have hliteral : Quote.single.literal "\\'é\t\n" = "'\\\\\\'é\\t\\n'" := by decide +kernel
  have hliteral' : Quote.single.literal "\\'é\t\n\x00" = "'\\\\\\'é\\t\\n\x00'" := by
    decide +kernel
  obtain ⟨-, hstores, hunique⟩ := stores_literal .single "\\'é\t\n" 7
  refine ⟨hroom, hliteral ▸ hstores hroom, fun h' => ?_⟩
  have heq : "\\'é\t\n" = "\\'é\t\n\x00" :=
    hunique .single _ _ _ (by decide +kernel) (by decide +kernel) (hstores hroom) (hliteral' ▸ h')
  exact absurd heq (by decide)

end Source

end Storing

end ChartNet
