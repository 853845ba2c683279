import ChartNet.Json.Basic
import ChartNet.Text.Blank
import ChartNet.Text.Units

/-!
# Diagnostics

A **diagnostic** is a message about a document with the place that it is about. Places that
readers of expression text report are natural numbers; a place that comes from elsewhere is kept
as it is given if it is finite and positive.
-/

namespace ChartNet

/-- How grave a diagnostic is. -/
inductive Severity where
  | error
  | warning
deriving DecidableEq

/-- The name of a severity. -/
def Severity.name : Severity → String
  | .error => "error"
  | .warning => "warning"

/-- A **diagnostic**. -/
structure Diagnostic where
  line : Float
  column : Float
  message : String
  severity : Severity := .error
  code : Option String := none
  hint : Option String := none
  length : Option Float := none
  /-- Set for the issues of a document's shape, which list their message last. -/
  ofShape : Bool := false
deriving DecidableEq

/-- A line and a column. -/
structure Position where
  line : Float
  column : Float
deriving DecidableEq

namespace Position

/-- A coordinate if it is finite and positive, otherwise the fallback. -/
def coordinate (given : Option Float) (fallback : Float) : Float :=
  match given with
  | some x => if x.isFinite && x > 0 then x else fallback
  | none => fallback

/-- The given place, with fallbacks for coordinates that are no place. -/
def coerce (line column : Option Float) (fallback : Position := ⟨1, 1⟩) : Position :=
  ⟨coordinate line fallback.line, coordinate column fallback.column⟩

/-- The place right after the last character of a text. -/
def endOf (text : String) : Position :=
  let ls := Text.lines text
  ⟨Float.ofNat ls.length, Float.ofNat (Text.width (ls.getLastD "") + 1)⟩

end Position

namespace Diagnostic

/-- An error at a place, with what else is known about it. -/
def errorAt (line column : Option Float) (message : String) (code hint : Option String := none)
    (length : Option Float := none) : Diagnostic :=
  let p := Position.coerce line column
  { line := p.line, column := p.column, message, code, hint, length }

/-- The JSON form of a diagnostic. -/
def toJson (d : Diagnostic) : Json :=
  let place := [("line", some (Json.num d.line)), ("column", some (Json.num d.column))]
  let message := [("message", some (Json.str d.message))]
  let severity := [("severity", some (Json.str d.severity.name))]
  let code := [("code", d.code.map Json.str)]
  let more := [("hint", d.hint.map Json.str), ("length", d.length.map Json.num)]
  Json.fields <|
    if d.ofShape then place ++ severity ++ code ++ message ++ more
    else place ++ message ++ severity ++ code ++ more

end Diagnostic

end ChartNet
