import ChartNet.Json.Basic
import ChartNet.Text.Units
import ChartNet.Number.Text

/-!
# Reading JSON text

`Json.parse` reads a text that holds one value. A text that holds none is rejected at the first
character that no value can continue with, with what was expected there. The reader descends by
the length of the text that is left, so that it is total.
-/

namespace ChartNet.Json

/-- Why a text is no JSON value. -/
inductive Fault where
  | endOfInput
  | nameOrBrace
  | name
  | colon
  | commaOrBrace
  | commaOrBracket
  | unterminatedString
  | controlCharacter
  | escape
  | unicodeEscape
  | minusSign
  | fraction
  | exponent
  | number
  | string
  | character (c : Char)
  | trailing
deriving DecidableEq

/-- A **reading error**: what is wrong, and the text that was left there. -/
structure ReadError where
  fault : Fault
  rest : List Char

/-- The result of reading a part of a text: a value and the text that is left. -/
abbrev Step (α : Type) :=
  Except ReadError (α × List Char)

/-- The text after its leading blanks. -/
def skip : List Char → List Char
  | ' ' :: cs | '\t' :: cs | '\n' :: cs | '\r' :: cs => skip cs
  | cs => cs

theorem length_skip_le (cs : List Char) : (skip cs).length ≤ cs.length := by
  fun_induction skip cs <;> simp_all <;> omega

/-- What is wrong with a character, or the end of the text, where a value has to go on. -/
def unexpected : List Char → ReadError
  | [] => ⟨.endOfInput, []⟩
  | c :: cs =>
    if c == '"' then ⟨.string, c :: cs⟩
    else if c.isDigit || c == '-' then ⟨.number, c :: cs⟩
    else ⟨.character c, c :: cs⟩

/-- Where the reader of a string stands. -/
inductive StringMode where
  | plain
  | escaped
  | hex (left : Nat) (value : Nat)

/-- The value of a hexadecimal digit. -/
def hexValue? (c : Char) : Option Nat :=
  if c.isDigit then some (c.toNat - '0'.toNat)
  else if 'a' ≤ c ∧ c ≤ 'f' then some (c.toNat - 'a'.toNat + 10)
  else if 'A' ≤ c ∧ c ≤ 'F' then some (c.toNat - 'A'.toNat + 10)
  else none

/-- The character that an escape letter stands for. -/
def unescape? : Char → Option Char
  | '"' => some '"'
  | '\\' => some '\\'
  | '/' => some '/'
  | 'b' => some '\x08'
  | 'f' => some '\x0c'
  | 'n' => some '\n'
  | 'r' => some '\r'
  | 't' => some '\t'
  | _ => none

/-- What is wrong with a character that cannot be escaped; only those of one byte are known to the
table of escapes. -/
def escapeFault (c : Char) : Fault :=
  if c.toNat ≤ 0xFF then .escape else .character c

/-- Reads a string after its opening quote; `acc` holds the units read so far, last first. -/
def scanString : StringMode → List Nat → List Char → Step (List Nat)
  | .hex _ _, _, [] => .error ⟨.unicodeEscape, []⟩
  | .escaped, _, [] => .error ⟨.endOfInput, []⟩
  | .plain, _, [] => .error ⟨.unterminatedString, []⟩
  | .plain, acc, c :: cs =>
    if c = '"' then .ok (acc.reverse, cs)
    else if c = '\\' then scanString .escaped acc cs
    else if c.toNat < 0x20 then .error ⟨.controlCharacter, c :: cs⟩
    else scanString .plain ((Text.unitsOf c).reverse ++ acc) cs
  | .escaped, acc, c :: cs =>
    if c = 'u' then scanString (.hex 4 0) acc cs
    else
      match unescape? c with
      | some d => scanString .plain (d.toNat :: acc) cs
      | none => .error ⟨escapeFault c, c :: cs⟩
  | .hex left value, acc, c :: cs =>
    match hexValue? c with
    | some d =>
      if left ≤ 1 then scanString .plain ((16 * value + d) :: acc) cs
      else scanString (.hex (left - 1) (16 * value + d)) acc cs
    | none => .error ⟨.unicodeEscape, c :: cs⟩

theorem scanString_length {mode : StringMode} {acc : List Nat} {cs : List Char} {u : List Nat}
    {rest : List Char} (h : scanString mode acc cs = .ok (u, rest)) : rest.length < cs.length := by
  fun_induction scanString mode acc cs <;> simp_all <;> omega

/-- The characters that a list of units spells; a unit of a broken pair becomes U+FFFD. -/
def charsOfUnits : List Nat → List Char
  | [] => []
  | [u] => [if 0xD800 ≤ u ∧ u < 0xE000 then '\uFFFD' else Char.ofNat u]
  | u :: v :: rest =>
    if 0xD800 ≤ u ∧ u < 0xDC00 ∧ 0xDC00 ≤ v ∧ v < 0xE000 then
      Char.ofNat (0x10000 + (u - 0xD800) * 0x400 + (v - 0xDC00)) :: charsOfUnits rest
    else
      (if 0xD800 ≤ u ∧ u < 0xE000 then '\uFFFD' else Char.ofNat u) :: charsOfUnits (v :: rest)

/-- Reads a string after its opening quote. -/
def readString (cs : List Char) : Step String :=
  (scanString .plain [] cs).map fun r => (String.ofList (charsOfUnits r.1), r.2)

theorem readString_length {cs rest : List Char} {s : String} (h : readString cs = .ok (s, rest)) :
    rest.length < cs.length := by
  unfold readString at h
  cases hs : scanString .plain [] cs with
  | error e => simp [hs, Except.map] at h
  | ok r =>
    simp only [hs, Except.map, Except.ok.injEq, Prod.mk.injEq] at h
    have := @scanString_length .plain [] cs r.1 r.2 hs
    simpa [h.2] using this

/-- The digits at the start of a text and what follows them. -/
def digitRun (cs : List Char) : List Char × List Char :=
  (cs.takeWhile Char.isDigit, cs.dropWhile Char.isDigit)

/-- Reads the digits that have to follow, with the fault if there are none. -/
def someDigits (fault : Fault) (cs : List Char) : Step (List Char) :=
  match digitRun cs with
  | ([], _) => .error ⟨fault, cs⟩
  | run => .ok run

/-- Reads the whole part of a number: no digit follows a leading zero. -/
def wholeDigits (fault : Fault) (cs : List Char) : Step (List Char) :=
  match cs with
  | '0' :: c :: rest => if c.isDigit then .error ⟨.number, c :: rest⟩ else .ok (['0'], c :: rest)
  | _ => someDigits fault cs

/-- Reads the point and the digits of a fraction, if there is one. -/
def fractionPart (cs : List Char) : Step (List Char) :=
  match cs with
  | '.' :: rest => (someDigits .fraction rest).map fun r => ('.' :: r.1, r.2)
  | _ => .ok ([], cs)

/-- Reads the digits of an exponent after its mark. -/
def exponentDigits (cs : List Char) : Step (List Char) :=
  match cs with
  | '+' :: rest => (someDigits .exponent rest).map fun r => ('e' :: '+' :: r.1, r.2)
  | '-' :: rest => (someDigits .exponent rest).map fun r => ('e' :: '-' :: r.1, r.2)
  | _ => (someDigits .exponent cs).map fun r => ('e' :: r.1, r.2)

/-- Reads an exponent, if there is one. -/
def exponentPart (cs : List Char) : Step (List Char) :=
  match cs with
  | 'e' :: rest | 'E' :: rest => exponentDigits rest
  | _ => .ok ([], cs)

/-- Reads a number without its sign. -/
def unsigned (cs : List Char) : Except ReadError (Float × List Char) := do
  let (whole, cs) ← wholeDigits .minusSign cs
  let (fraction, cs) ← fractionPart cs
  let (exponent, cs) ← exponentPart cs
  return (Number.ofNumeral (whole ++ fraction ++ exponent), cs)

/-- Reads a number. -/
def readNumber (cs : List Char) : Step Float :=
  match cs with
  | '-' :: rest => (unsigned rest).map fun r => (-r.1, r.2)
  | _ => unsigned cs

/-- Reads the rest of a word such as `true`. -/
def readWord : List Char → List Char → Step Unit
  | [], cs => .ok ((), cs)
  | w :: ws, c :: cs => if w = c then readWord ws cs else .error (unexpected (c :: cs))
  | _ :: _, [] => .error (unexpected [])

/-- A part of a text that was read, with a text left that is shorter than `cs`. -/
abbrev Shorter (α : Type) (cs : List Char) :=
  Except ReadError (α × { rest : List Char // rest.length < cs.length })

/-- Keeps a result only if it leaves a shorter text than `cs`; every result does. -/
def shorter {α : Type} (cs : List Char) (r : Step α) : Shorter α cs :=
  match r with
  | .ok (a, rest) =>
    if h : rest.length < cs.length then .ok (a, ⟨rest, h⟩) else .error ⟨.endOfInput, rest⟩
  | .error e => .error e

mutual

/-- Reads a value. -/
def readValue (cs : List Char) : Shorter Json cs :=
  match h : skip cs with
  | [] => .error ⟨.endOfInput, []⟩
  | c :: rest =>
    have hc : rest.length < cs.length := by
      have := length_skip_le cs
      simp only [h, List.length_cons] at this
      omega
    if c = '"' then (shorter cs (readString rest)).map fun r => (.str r.1, r.2)
    else if c = '\x7b' then
      match hr : skip rest with
      | '\x7d' :: rest' =>
        .ok (.obj [], ⟨rest', by
          have := length_skip_le rest
          simp only [hr, List.length_cons] at this
          omega⟩)
      | _ =>
        match readMembers .nameOrBrace [] rest with
        | .ok (ms, r) => .ok (object ms, ⟨r.1, by have := r.2; omega⟩)
        | .error e => .error e
    else if c = '[' then
      match hr : skip rest with
      | ']' :: rest' =>
        .ok (.arr [], ⟨rest', by
          have := length_skip_le rest
          simp only [hr, List.length_cons] at this
          omega⟩)
      | _ =>
        match readItems [] rest with
        | .ok (xs, r) => .ok (.arr xs, ⟨r.1, by have := r.2; omega⟩)
        | .error e => .error e
    else if c = 't' then (shorter cs (readWord ['r', 'u', 'e'] rest)).map fun r => (.bool true, r.2)
    else if c = 'f' then
      (shorter cs (readWord ['a', 'l', 's', 'e'] rest)).map fun r => (.bool false, r.2)
    else if c = 'n' then (shorter cs (readWord ['u', 'l', 'l'] rest)).map fun r => (.null, r.2)
    else if c.isDigit || c == '-' then
      (shorter cs (readNumber (c :: rest))).map fun r => (.num r.1, r.2)
    else .error (unexpected (c :: rest))
termination_by (cs.length, 0)

/-- Reads the elements of an array and its closing bracket; `acc` holds the elements before,
last first. -/
def readItems (acc : List Json) (cs : List Char) : Shorter (List Json) cs :=
  match readValue cs with
  | .error e => .error e
  | .ok (x, r) =>
    match hr : skip r.1 with
    | ',' :: rest =>
      have : rest.length < cs.length := by
        have h := length_skip_le r.1
        simp only [hr, List.length_cons] at h
        have := r.2
        omega
      match readItems (x :: acc) rest with
      | .ok (xs, q) => .ok (xs, ⟨q.1, by have := q.2; omega⟩)
      | .error e => .error e
    | ']' :: rest =>
      .ok ((x :: acc).reverse, ⟨rest, by
        have h := length_skip_le r.1
        simp only [hr, List.length_cons] at h
        have := r.2
        omega⟩)
    | other => .error ⟨.commaOrBracket, other⟩
termination_by (cs.length, 1)

/-- Reads the members of an object and its closing brace; `acc` holds the members before, last
first, and `fault` is what is wrong if no name follows. -/
def readMembers (fault : Fault) (acc : List (String × Json)) (cs : List Char) :
    Shorter (List (String × Json)) cs :=
  match h : skip cs with
  | '"' :: afterQuote =>
    match hs : readString afterQuote with
    | .error e => .error e
    | .ok (name, afterName) =>
      match hc : skip afterName with
      | ':' :: afterColon =>
        have hlt : afterColon.length < cs.length := by
          have h1 := length_skip_le cs
          have h2 := readString_length hs
          have h3 := length_skip_le afterName
          simp only [h, hc, List.length_cons] at h1 h3
          omega
        match readValue afterColon with
        | .error e => .error e
        | .ok (x, r) =>
          match hr : skip r.1 with
          | ',' :: rest =>
            have : rest.length < cs.length := by
              have h := length_skip_le r.1
              simp only [hr, List.length_cons] at h
              have := r.2
              omega
            match readMembers .name ((name, x) :: acc) rest with
            | .ok (ms, q) => .ok (ms, ⟨q.1, by have := q.2; omega⟩)
            | .error e => .error e
          | '\x7d' :: rest =>
            .ok (((name, x) :: acc).reverse, ⟨rest, by
              have h := length_skip_le r.1
              simp only [hr, List.length_cons] at h
              have := r.2
              omega⟩)
          | other => .error ⟨.commaOrBrace, other⟩
      | other => .error ⟨.colon, other⟩
  | other => .error ⟨fault, other⟩
termination_by (cs.length, 2)

end

/-- Reads a text that holds one value and blanks around it. -/
def read (cs : List Char) : Except ReadError Json :=
  match readValue cs with
  | .error e => .error e
  | .ok (x, r) =>
    match skip r.1 with
    | [] => .ok x
    | rest => .error ⟨.trailing, rest⟩

/-! ### Messages -/

/-- The words for a fault whose message gives the position. -/
def Fault.words : Fault → String
  | .endOfInput => "Unexpected end of JSON input"
  | .nameOrBrace => "Expected property name or '\x7d'"
  | .name => "Expected double-quoted property name"
  | .colon => "Expected ':' after property name"
  | .commaOrBrace => "Expected ',' or '\x7d' after property value"
  | .commaOrBracket => "Expected ',' or ']' after array element"
  | .unterminatedString => "Unterminated string"
  | .controlCharacter => "Bad control character in string literal"
  | .escape => "Bad escaped character"
  | .unicodeEscape => "Bad Unicode escape"
  | .minusSign => "No number after minus sign"
  | .fraction => "Unterminated fractional number"
  | .exponent => "Exponent part is missing a number"
  | .number => "Unexpected number"
  | .string => "Unexpected string"
  | .character c => "Unexpected token '" ++ String.singleton c ++ "'"
  | .trailing => "Unexpected non-whitespace character after JSON"

/-- The line and column of an offset: lines end at a line feed, a carriage return or both. -/
def placeOf : List Char → Nat × Nat
  | cs => go cs 1 1
where
  /-- Counts on from a line and column. -/
  go : List Char → Nat → Nat → Nat × Nat
    | [], line, column => (line, column)
    | '\r' :: '\n' :: rest, line, _ => go rest (line + 1) 1
    | '\r' :: rest, line, _ => go rest (line + 1) 1
    | '\n' :: rest, line, _ => go rest (line + 1) 1
    | c :: rest, line, column => go rest line (column + Text.charWidth c)

/-- Texts that are named whole when they are no JSON value. -/
def bareWords : List String :=
  ["NaN", "Infinity", "undefined", "[object Object]"]

/-- The units of a text from `start` to `stop`. -/
def slice (text : String) (start stop : Nat) : String :=
  String.ofList (charsOfUnits (((Text.units text).take stop).drop start))

/-- The text around an unexpected character: all of a short text, otherwise ten units to each
side. -/
def surroundings (text : String) (offset : Nat) : String :=
  let size := Text.width text
  if size < 21 then "\"" ++ text ++ "\""
  else if offset < 10 then "\"" ++ slice text 0 (offset + 10) ++ "\"..."
  else if offset < size - 10 then "...\"" ++ slice text (offset - 10) (offset + 10) ++ "\"..."
  else "...\"" ++ slice text (offset - 10) size ++ "\""

/-- The **offset** of an error in its text, in units. -/
def ReadError.offset (e : ReadError) (text : String) : Nat :=
  Text.width text - Text.widthOf e.rest

/-- Where an error is, for the faults that have a place. -/
def ReadError.offset? (e : ReadError) (text : String) : Option Nat :=
  match e.fault with
  | .endOfInput | .character _ => none
  | _ => some (e.offset text)

/-- The message of an error in the given text. -/
def ReadError.message (e : ReadError) (text : String) : String :=
  let offset := e.offset text
  let (line, column) := placeOf (text.toList.take (text.toList.length - e.rest.length))
  let place := " at position " ++ Number.natText offset ++ " (line " ++ Number.natText line ++
    " column " ++ Number.natText column ++ ")"
  match e.fault with
  | .endOfInput => e.fault.words
  | .character _ =>
    if bareWords.contains text then "\"" ++ text ++ "\" is not valid JSON"
    else e.fault.words ++ ", " ++ surroundings text offset ++ " is not valid JSON"
  | .trailing => e.fault.words ++ place
  | _ => e.fault.words ++ " in JSON" ++ place

/-- The **value** that a text holds. -/
def parse (text : String) : Except ReadError Json :=
  read text.toList

end ChartNet.Json
