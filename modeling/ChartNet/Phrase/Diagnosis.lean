import ChartNet.Phrase.Parser
import ChartNet.Phrase.Meaning

/-!
# Diagnosing expression text

Text is diagnosed before it is given a meaning. Every run of junk is a diagnostic; only a text
without junk is parsed, and then at most one diagnostic says why it is no phrase. The most
specific description that applies is chosen.
-/

namespace ChartNet

/-- The diagnostic of a run of junk. -/
def Junk.diagnostic (j : Junk) : Diagnostic where
  line := Float.ofNat j.start.line
  column := Float.ofNat j.start.column
  code := some "EX-LEX"
  message := "unexpected character: ->" ++ String.singleton j.first ++ "<- at offset: " ++
    Number.natText j.start.offset ++ ", skipped " ++ Number.natText j.length ++ " characters."
  length := some (Float.ofNat j.length)

namespace Phrase

/-- What stands at the place of an error, in words. -/
def ParseError.foundText (e : ParseError) : String :=
  match e.found with
  | some t => quoted t.text
  | none => "the end of the expression"

/-- The mark of a closing sign in the wording of errors. -/
def mark : TokenKind → Option String
  | .rightParen => some "--> RParen <--"
  | .rightBracket => some "--> RBracket <--"
  | .colon => some "--> Colon <--"
  | _ => none

/-- Whether an error **asks for** a closing sign: it was expected, or the text that was found spells
its mark. -/
def ParseError.asksFor (e : ParseError) (kind : TokenKind) : Bool :=
  e.expected = .token kind ||
    match e.found, mark kind with
    | some t, some m => Text.contains t.text m
    | _, _ => false

/-- Code, message and hint of an error. -/
def ParseError.describe (e : ParseError) : String × String × Option String :=
  let kind := e.found.map (·.kind)
  let text := (e.found.map (·.text)).getD "end of input"
  if kind = some .strictEquality then
    ("EX-STRICT-EQ", "Strict equality " ++ quoted text ++ " is not supported.",
      some ("Use '" ++ (if text = "===" then "==" else "!=") ++ "' instead."))
  else if kind = some .assign then
    ("EX-ASSIGN-IN-EXPR", "Assignment '=' is not allowed inside an expression.",
      some "Use '==' to compare values; assignments belong in an assign step.")
  else if e.asksFor .rightParen ∧ (e.found.isNone ∨ e.inArguments) then
    ("EX-MISSING-RPAREN", "Missing ')' before " ++ e.foundText ++ ".",
      some "Every opening parenthesis needs a matching closing one.")
  else if e.asksFor .rightBracket then
    ("EX-MISSING-RBRACKET", "Missing ']' before " ++ e.foundText ++ ".",
      some "Close the array literal or index access with ].")
  else if e.asksFor .colon ∧ e.expected ≠ .nothing then
    ("EX-TERNARY-MISSING-COLON", "Conditional expression is missing the ':' branch.",
      some "Write it as cond ? whenTrue : whenFalse.")
  else if e.expected = .nothing then
    ("EX-TRAILING", "Unexpected " ++ quoted text ++ " after the end of the expression.",
      some "Only a single expression is allowed; combine conditions with && or ||.")
  else if e.found.isNone then ("EX-UNEXPECTED-END", "Unexpected end of expression.", none)
  else ("EX-UNEXPECTED", "Unexpected " ++ quoted text ++ ".", none)

/-- The **diagnostic** of an error in a text: at the token found, or after the end of the text. -/
def ParseError.diagnostic (e : ParseError) (text : String) : Diagnostic :=
  let (code, message, hint) := e.describe
  match e.found with
  | some t =>
    { line := Float.ofNat t.start.line
      column := Float.ofNat t.start.column
      length := some (Float.ofNat (max 1 (Text.width t.text)))
      message, hint, code := some code }
  | none =>
    let p := Position.endOf text
    { line := p.line, column := p.column, length := some 1, message, hint, code := some code }

/-- The phrase of a text, or the diagnostics that say why it has none. -/
def ofText (text : String) : Except (List Diagnostic) Phrase :=
  let cut := Token.cut text
  if cut.junk.isEmpty then (parse cut.tokens).mapError fun e => [e.diagnostic text]
  else .error (cut.junk.map (·.diagnostic))

end Phrase

end ChartNet
