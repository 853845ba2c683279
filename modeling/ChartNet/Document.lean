import ChartNet.Descriptor.Compile
import ChartNet.Json.Parser

/-!
# Documents

What is compiled comes as text or as JSON values, and what is wrong with it goes out as
diagnostics: text that is no JSON at its place in the text, issues of the shape of a document at
its start, and compile errors where they arose.
-/

namespace ChartNet.Document

/-- What can be wrong with a document, or the value that was made of it. -/
abbrev Outcome (α : Type) := Except (List Diagnostic) α

/-- The result of a step with its error as a diagnostic. -/
def ofResult {α : Type} (r : Result α) : Outcome α :=
  r.mapError fun e => [e.toDiagnostic]

/-- An error about a document as a whole. -/
def refusal (message code : String) : Diagnostic :=
  .errorAt (some 1) (some 1) message (some code)

/-! ### JSON text -/

/-- The first number in a text that stands right after the word "position". -/
def positionIn : List Char → Option Nat
  | [] => none
  | c :: cs =>
    match Text.after? "position ".toList (c :: cs) with
    | some (d :: ds) =>
      if d.isDigit then some (Number.natOfDigits ((d :: ds).takeWhile Char.isDigit))
      else positionIn cs
    | _ => positionIn cs

/-- The line and column of an offset: lines end at a line feed, and everything is counted in
units. -/
def placeAt (text : String) (offset : Nat) : Nat × Nat :=
  let before := (Text.units text).take offset
  (before.count 10 + 1, (before.reverse.takeWhile (· != 10)).length + 1)

/-- The diagnostic for a text that is no JSON value, at the position that the message gives. -/
def jsonDiagnostic (what text : String) (e : Json.ReadError) : Diagnostic :=
  let message := e.message text
  let (line, column) :=
    match positionIn message.toList with
    | some offset => placeAt text offset
    | none => (1, 1)
  .errorAt (some (Float.ofNat line)) (some (Float.ofNat column))
    ("Invalid JSON in " ++ what ++ ": " ++ message) (some "IN-JSON")

/-- The **JSON value** that a text holds; `what` says what the text is. -/
def readJson (what text : String) : Except Diagnostic Json :=
  (Json.parse text).mapError (jsonDiagnostic what text)

/-! ### Models -/

/-- The chart of a reference, or what is wrong with it. -/
def loadChart (charts : List (String × Json)) (reference : String) : Outcome Chart :=
  match charts.lookup reference with
  | none => .error [refusal ("Chart '" ++ reference ++ "' was not provided") "MO-CONFIG"]
  | some j =>
    (Chart.ofJson j).mapError fun ds =>
      ds.map fun d => { d with message := reference ++ ": " ++ d.message }

/-- The charts of references, or what is wrong with all of them. They are collected in an object, by
their references. -/
def loadCharts (charts : List (String × Json)) : List String → Outcome Charts
  | [] => .ok []
  | r :: rs =>
    match loadChart charts r, loadCharts charts rs with
    | .ok c, .ok cs => .ok (objectEntries [(r, c)] ++ cs)
    | .ok _, .error es => .error es
    | .error es, .ok _ => .error es
    | .error es, .error fs => .error (es ++ fs)

/-- **Compiles** a descriptor that is given as a JSON value, with the charts that it refers to, to
the JSON form of its model. -/
def compile (descriptor : Json) (charts : List (String × Json) := []) : Outcome Json := do
  let d ← Descriptor.ofJson descriptor
  let loaded ← loadCharts charts d.references
  let (_, json) ← ofResult (d.compile loaded)
  return json

/-- The chart in the text of a reference. A place in that text is told in the message, because the
diagnostic is about the descriptor. -/
def readChart (read : String → Option String) (reference : String) : Outcome (String × Json) :=
  match read reference with
  | none => .error [refusal ("Chart file '" ++ reference ++ "' not found") "MO-CONFIG"]
  | some text =>
    match readJson ("chart '" ++ reference ++ "'") text with
    | .ok j => .ok (reference, j)
    | .error d =>
      .error [refusal (d.message ++ " (" ++ reference ++ ":" ++ Number.text d.line ++ ":" ++
        Number.text d.column ++ ")") "IN-SCHEMA"]

/-- **Compiles** the text of a descriptor; `read` gives the texts of the charts that it refers
to. -/
def compileText (text : String) (read : String → Option String) : Outcome Json := do
  let j ← (readJson "model descriptor" text).mapError ([·])
  let d ← Descriptor.ofJson j
  let charts ← d.references.mapM (readChart read)
  compile j (objectEntries charts)

/-! ### Expressions -/

/-- Reads constants from their JSON forms. -/
def readConstants (constants : List (String × Json)) : Result Constants :=
  constants.mapM fun (name, j) => do return (name, ← Expr.ofJson j name)

/-- The JSON form of the text of an **expression**, with its macros expanded over the given
constants if there are any. -/
def compileExpr (text : String) (constants : Option (List (String × Json))) : Outcome Json :=
  ofResult do
    let e ← Source.parse text
    match constants with
    | none => return e.toJson
    | some cs => e.expandedJson (← readConstants cs)

end ChartNet.Document
