import ChartNet.Text.Blank
import ChartNet.Text.Units

/-!
# Tokens of expression text

Text is cut into **tokens**, and the blanks between them are skipped. Where several kinds of
token fit, the first in this order counts: string, number, word, operator; of the operators the
longest that fits. Characters that start no token are **junk**; a run of them ends where a token
or a blank starts.

Places count 16-bit units. A line ends at a line feed, a carriage return or both, also inside a
string.
-/

namespace ChartNet

/-- The **kinds** of tokens. -/
inductive TokenKind where
  | string | number | trueWord | falseWord | word
  | strictEquality | equals | notEquals | lessEquals | greaterEquals | andAnd | orOr
  | less | greater | assign | bang | plus | minus | star | slash | percent
  | question | colon | dot | comma | leftParen | rightParen | leftBracket | rightBracket
deriving DecidableEq

/-- A place in a text: the offset from its start, and the line and column, from one. -/
structure Cursor where
  offset : Nat := 0
  line : Nat := 1
  column : Nat := 1
deriving DecidableEq

/-- A **token**: its kind, its text and the place where it starts. -/
structure Token where
  kind : TokenKind
  text : String
  start : Cursor
deriving DecidableEq

/-- A run of characters that belong to no token. -/
structure Junk where
  first : Char
  length : Nat
  start : Cursor
deriving DecidableEq

/-- The place after some characters. -/
def Cursor.after (here : Cursor) : List Char → Cursor
  | [] => here
  | '\r' :: '\n' :: cs =>
    Cursor.after { offset := here.offset + 2, line := here.line + 1, column := 1 } cs
  | c :: cs =>
    if c = '\n' ∨ c = '\r' then
      Cursor.after { offset := here.offset + 1, line := here.line + 1, column := 1 } cs
    else
      Cursor.after
        { here with
          offset := here.offset + Text.charWidth c
          column := here.column + Text.charWidth c } cs

namespace Token

/-! ### Lexemes -/

/-- The length of a string after its opening quote `q`, up to and with the closing one. A
backslash takes the next character with it, which must not end a line. -/
def stringLength (q : Char) : List Char → Option Nat
  | [] => none
  | c :: cs =>
    if c = q then some 1
    else if c = '\\' then
      match cs with
      | [] => none
      | d :: ds => if Text.endsLine d then none else (stringLength q ds).map (· + 2)
    else (stringLength q cs).map (· + 1)

/-- The length of the digits at the start of a text. -/
def digitLength (cs : List Char) : Nat :=
  (cs.takeWhile Char.isDigit).length

/-- The length of an exponent at the start of a text: a mark, an optional sign and at least one
digit; zero if there is none. -/
def exponentLength : List Char → Nat
  | c :: cs =>
    if c = 'e' ∨ c = 'E' then
      match cs with
      | s :: ds =>
        if s = '+' ∨ s = '-' then if digitLength ds = 0 then 0 else digitLength ds + 2
        else if digitLength cs = 0 then 0
        else digitLength cs + 1
      | [] => 0
    else 0
  | [] => 0

/-- The length of the digits with an optional point at the start of a text: digits, a point and
perhaps more digits, or a point and digits; zero if there are none. -/
def mantissaLength (cs : List Char) : Nat :=
  match digitLength cs with
  | 0 =>
    match cs with
    | '.' :: ds => if digitLength ds = 0 then 0 else digitLength ds + 1
    | _ => 0
  | n =>
    match cs.drop n with
    | '.' :: ds => n + 1 + digitLength ds
    | _ => n

/-- The length of a number at the start of a text; zero if there is none. -/
def numberLength (cs : List Char) : Nat :=
  match mantissaLength cs with
  | 0 => 0
  | n => n + exponentLength (cs.drop n)

/-- Whether a character can start a word. -/
def startsWord (c : Char) : Bool := c.isAlpha || c == '_' || c == '$'

/-- Whether a character can continue a word. -/
def continuesWord (c : Char) : Bool := startsWord c || c.isDigit

/-- The kind of a word: the two truth values are kinds of their own. -/
def wordKind (cs : List Char) : TokenKind :=
  if cs = ['t', 'r', 'u', 'e'] then .trueWord
  else if cs = ['f', 'a', 'l', 's', 'e'] then .falseWord
  else .word

/-- The operators, each before those that it starts with. -/
def operators : List (List Char × TokenKind) :=
  [(['=', '=', '='], .strictEquality), (['!', '=', '='], .strictEquality), (['=', '='], .equals),
    (['!', '='], .notEquals), (['<', '='], .lessEquals), (['>', '='], .greaterEquals),
    (['&', '&'], .andAnd), (['|', '|'], .orOr), (['<'], .less), (['>'], .greater), (['='], .assign),
    (['!'], .bang), (['+'], .plus), (['-'], .minus), (['*'], .star), (['/'], .slash),
    (['%'], .percent), (['?'], .question), ([':'], .colon), (['.'], .dot), ([','], .comma),
    (['('], .leftParen), ([')'], .rightParen), (['['], .leftBracket), ([']'], .rightBracket)]

/-- The kind and length of the **lexeme** at the start of a text. -/
def lexeme? (cs : List Char) : Option (TokenKind × Nat) :=
  match cs with
  | [] => none
  | c :: rest =>
    match if c = '"' ∨ c = '\'' then stringLength c rest else none with
    | some n => some (.string, n + 1)
    | none =>
      match numberLength cs with
      | n + 1 => some (.number, n + 1)
      | 0 =>
        if startsWord c then
          let word := cs.takeWhile continuesWord
          some (wordKind word, word.length)
        else (operators.find? (·.1.isPrefixOf cs)).map fun o => (o.2, o.1.length)

/-- Whether a token or a blank starts here. -/
def startsHere (cs : List Char) : Bool :=
  match cs with
  | [] => false
  | c :: _ => Text.isBlank c || (lexeme? cs).isSome

/-- The number of characters before the next token or blank. -/
def junkLength : List Char → Nat
  | [] => 0
  | c :: cs => if startsHere (c :: cs) then 0 else junkLength cs + 1

/-! ### Cutting a text into tokens -/

/-- The tokens of a text and the junk between them. -/
structure Cut where
  tokens : List Token := []
  junk : List Junk := []

/-- Cuts a text that starts at a place. Each round takes the blanks, the token or the junk at the
start, at least one character. -/
def cutFrom (here : Cursor) (cs : List Char) : Cut :=
  match cs with
  | [] => {}
  | c :: rest =>
    if Text.isBlank c then
      cutFrom (here.after (c :: rest.takeWhile Text.isBlank)) (rest.dropWhile Text.isBlank)
    else
      match lexeme? (c :: rest) with
      | some (kind, n) =>
        let text := (c :: rest).take (n - 1 + 1)
        let more := cutFrom (here.after text) (rest.drop (n - 1))
        { more with tokens := ⟨kind, String.ofList text, here⟩ :: more.tokens }
      | none =>
        let n := junkLength rest
        let skipped := c :: rest.take n
        let more := cutFrom (here.after skipped) (rest.drop n)
        { more with junk := ⟨c, Text.widthOf skipped, here⟩ :: more.junk }
termination_by cs.length
decreasing_by
  · simp only [List.length_cons]
    have := (List.dropWhile_suffix (l := rest) Text.isBlank).length_le
    omega
  · simp only [List.length_cons, List.length_drop]
    omega
  · simp only [List.length_cons, List.length_drop]
    omega

/-- Cuts a text into tokens. -/
def cut (text : String) : Cut :=
  cutFrom {} text.toList

end Token

end ChartNet
