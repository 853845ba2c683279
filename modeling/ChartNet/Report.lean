import ChartNet.Diagnostic
import ChartNet.Json.Printer
import ChartNet.Number.Size
import ChartNet.Text.Blank

/-!
# Reports

Diagnostics are **reported** as text for a terminal, with the lines of the document around each
place, or as JSON. Diagnostics about the shape of a document or about its model have no place in
the text, so no lines are shown for them.
-/

namespace ChartNet.Report

/-- What makes text red in a terminal. -/
def red : String := "\x1b[31m"

/-- What makes text yellow in a terminal. -/
def yellow : String := "\x1b[33m"

/-- What ends a colour in a terminal. -/
def plain : String := "\x1b[0m"

/-- A text in a colour. -/
def coloured (colour text : String) : String :=
  colour ++ text ++ plain

/-- The code of diagnostics that say no more than that something is unexpected. -/
def unexpectedCode : String := "EX-UNEXPECTED"

/-- Whether a diagnostic has a place in the text of its document. -/
def hasPlace (d : Diagnostic) : Bool :=
  let code := d.code.getD ""
  code != "IN-SCHEMA" && !Text.startsWith code "MO-"

/-- Whether a diagnostic **repeats** another one: it only says that something is unexpected, and
another one on the same line, at most two columns away, says more. -/
def isRedundant (all : List Diagnostic) (d : Diagnostic) : Bool :=
  d.code == some unexpectedCode && all.any fun o =>
    o.code != some unexpectedCode && o.line == d.line && (o.column - d.column).abs <= 2

/-- The diagnostics that are shown. -/
def shown (diagnostics : List Diagnostic) : List Diagnostic :=
  diagnostics.filter (!isRedundant diagnostics ·)

/-- A number of blanks. -/
def blanks (n : Nat) : String :=
  String.ofList (List.replicate n ' ')

/-- The start of a shown line: its number, which need not be one of the document, and a bar. -/
def gutter (width : Nat) (number : Float) : String :=
  let text := Number.text number
  "  " ++ blanks (width - text.length) ++ text ++ " | "

/-- The index of the line that a diagnostic is about; one beyond either end is the line at that
end. -/
def lineIndex (count : Nat) (line : Float) : Float :=
  let last := Float.ofNat count - 1
  let index := if line - 1 < last then line - 1 else last
  if index > 0 then index else 0

/-- The line at an index, if it is one. -/
def lineAt (lines : List String) (index : Float) : Option String :=
  (Number.toNat? index).bind (lines[·]?)

/-- How often a mark is repeated for a number: its whole part. -/
def repetitions (x : Float) : Nat :=
  (Size.ofFloat x).count

/-- The **lines** around the place of a diagnostic, with a mark under the place; none if the line
is blank. -/
def snippet (lines : List String) (d : Diagnostic) : List String :=
  let index := lineIndex lines.length d.line
  let text := (lineAt lines index).getD ""
  if text.toList.all Text.isBlank then []
  else
    let width := (Number.natText lines.length).length
    let mark := List.replicate (repetitions (max 1 (d.length.getD 1))) '^'
    let indent := blanks (repetitions (max 0 (d.column - 1)))
    let before := if index > 0 then lineAt lines (index - 1) else none
    (before.map (gutter width (d.line - 1) ++ ·)).toList ++
    [gutter width d.line ++ text,
      "  " ++ blanks width ++ " | " ++ indent ++ coloured red (String.ofList mark)] ++
    ((lineAt lines (index + 1)).map (gutter width (d.line + 1) ++ ·)).toList

/-- The lines of a hint. -/
def hintLines (hint : String) : List String :=
  match Text.lines hint with
  | [] => ["hint: "]
  | first :: rest => ("hint: " ++ first) :: rest.map ("  " ++ ·)

/-- The lines about a diagnostic. -/
def entry (file : String) (lines : List String) (d : Diagnostic) : List String :=
  let label :=
    match d.severity with
    | .error => coloured red "error"
    | .warning => coloured yellow "warning"
  let code := (d.code.filter (!·.isEmpty)).map fun c => "[" ++ c ++ "]"
  [label ++ code.getD "" ++ ": " ++ d.message,
    "at " ++ file ++ ":" ++ Number.text d.line ++ ":" ++ Number.text d.column] ++
  (if hasPlace d then snippet lines d else []) ++
  (match d.hint with
    | some hint => if hint.isEmpty then [] else hintLines hint
    | none => []) ++
  [""]

/-- The **report** on a document as text. -/
def text (file content : String) (diagnostics : List Diagnostic) : String :=
  match shown diagnostics with
  | [] => "Valid"
  | ds => "\n".intercalate (ds.flatMap (entry file (Text.lines content)))

/-- How many diagnostics are errors. -/
def errorCount (diagnostics : List Diagnostic) : Nat :=
  diagnostics.countP (·.severity == .error)

/-- The members of the JSON form of a summary. -/
def summaryMembers (diagnostics : List Diagnostic) : List (String × Json) :=
  let n := errorCount diagnostics
  [("valid", .bool (n == 0)), ("errorCount", .nat n), ("errors", .arr (diagnostics.map (·.toJson)))]

/-- The JSON form of a **summary** of diagnostics. -/
def summary (diagnostics : List Diagnostic) : Json :=
  .obj (summaryMembers diagnostics)

/-- The members of the JSON form of the summary of a document. -/
def fileMembers (file : String) (diagnostics : List Diagnostic) : List (String × Json) :=
  ("file", .str file) :: summaryMembers diagnostics

/-- The JSON form of the summary of a document. -/
def fileSummary (file : String) (diagnostics : List Diagnostic) : Json :=
  .obj (fileMembers file diagnostics)

end ChartNet.Report
