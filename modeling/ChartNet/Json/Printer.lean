import ChartNet.Json.Basic
import ChartNet.Number.Text

/-!
# JSON text

A value is written without blanks, or with each member and element on a line of its own,
indented by its depth; a `Layout` says which. A number that is not finite has no JSON form and is
written `null`.
-/

namespace ChartNet.Json

/-- The digit of a number below sixteen. -/
def hexDigit (n : Nat) : Char :=
  Nat.digitChar n

/-- The characters that stand for a character inside a string. -/
def escape (c : Char) : List Char :=
  match c with
  | '"' => ['\\', '"']
  | '\\' => ['\\', '\\']
  | '\n' => ['\\', 'n']
  | '\r' => ['\\', 'r']
  | '\t' => ['\\', 't']
  | '\x08' => ['\\', 'b']
  | '\x0c' => ['\\', 'f']
  | c =>
    if c.toNat < 0x20 then ['\\', 'u', '0', '0', hexDigit (c.toNat / 16), hexDigit (c.toNat % 16)]
    else [c]

/-- A text between quotes, with the characters escaped that a string cannot hold. -/
def quote (s : String) : String :=
  String.ofList ('"' :: s.toList.flatMap escape ++ ['"'])

/-- The JSON text of a number. -/
def numText (x : Float) : String :=
  if x.isFinite then Number.text x else "null"

/-- A **layout**: all in one line without blanks, or with each part on a line of its own that starts
with a `step` for each bracket around it. -/
inductive Layout where
  | compact
  | lines (step : String)
deriving DecidableEq

namespace Layout

/-- The greatest number of characters in a step. -/
def widestStep : Nat := 10

/-- The layout with steps of some blanks. -/
def blanks (n : Nat) : Layout :=
  lines (String.ofList (List.replicate n ' '))

/-- The layout that a number asks for: as many blanks as its whole part says, and no lines unless it
is above zero. -/
def ofNumber (x : Float) : Layout :=
  match Number.dyadic? x with
  | some d =>
    if d.negative || d.significand == 0 then compact else blanks (min widestStep d.wholePart)
  | none => if x > 0 then blanks widestStep else compact

/-- The layout that a text asks for, which is the step; an empty one asks for no lines. -/
def ofText (s : String) : Layout :=
  if s.isEmpty then compact else lines (String.ofList (s.toList.take widestStep))

/-- What starts a line at a depth. -/
def newLine (step : String) (depth : Nat) : String :=
  "\n" ++ String.join (List.replicate depth step)

/-- The texts of the parts of an array or object between brackets; `depth` is the depth of the
brackets. -/
def bracket (layout : Layout) (depth : Nat) (left right : String) (parts : List String) : String :=
  if parts.isEmpty then left ++ right
  else
    match layout with
    | compact => left ++ ",".intercalate parts ++ right
    | lines step =>
      let inner := newLine step (depth + 1)
      left ++ inner ++ ("," ++ inner).intercalate parts ++ newLine step depth ++ right

/-- What stands between a name and its value. -/
def colon : Layout → String
  | compact => ":"
  | lines _ => ": "

end Layout

mutual

/-- The text of a value at the given depth. -/
def renderAt (layout : Layout) (depth : Nat) : Json → String
  | null => "null"
  | bool b => if b then "true" else "false"
  | num x => numText x
  | str s => quote s
  | arr items => layout.bracket depth "[" "]" (renderItems layout (depth + 1) items)
  | obj members => layout.bracket depth "\x7b" "\x7d" (renderMembers layout (depth + 1) members)

/-- The texts of the elements of an array. -/
def renderItems (layout : Layout) (depth : Nat) : List Json → List String
  | [] => []
  | x :: xs => renderAt layout depth x :: renderItems layout depth xs

/-- The texts of the members of an object. -/
def renderMembers (layout : Layout) (depth : Nat) : List (String × Json) → List String
  | [] => []
  | (name, x) :: xs =>
    (quote name ++ layout.colon ++ renderAt layout depth x) :: renderMembers layout depth xs

end

/-- The **text** of a value in a layout. -/
def render (layout : Layout) (j : Json) : String :=
  renderAt layout 0 j

/-- The text of a value without blanks. -/
def compact (j : Json) : String :=
  j.render .compact

/-- The text of a value on lines of its own, indented by some blanks. -/
def pretty (indent : Nat) (j : Json) : String :=
  j.render (.blanks indent)

end ChartNet.Json
