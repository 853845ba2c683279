import ChartNet.Phrase.Diagnosis

/-!
# Expression source

`Source.read` gives the meaning of expression text as it is written; `Source.parse` gives the
expression for a place that expects one: an array literal is fitted to the shape of its target,
and the data of the current event is read from the variables of the event.
-/

namespace ChartNet

/-- Expression text with its **meaning**. -/
structure Source where
  text : String
  meaning : Meaning
deriving DecidableEq

namespace Source

/-- The diagnostics of a text; none if it is well formed. -/
def diagnose (text : String) : List Diagnostic :=
  match Phrase.ofText text with
  | .ok _ => []
  | .error ds => ds

/-- The meaning of a text. -/
def read (text : String) : Result Source :=
  match Phrase.ofText text with
  | .ok p => p.meaning.map (⟨text, ·⟩)
  | .error ds => .error { fault := .malformed text ds }

/-- The expression that a source is. -/
def expr (s : Source) : Expr := s.meaning.expr

/-- A literal **fitted** to the shape of its target; a string fits only an int array of one
dimension. -/
def fit (s : Source) (shape : ArrayShape) (pad : Bool) : Result ArrayValue :=
  match s.meaning with
  | .plain _ => failType (.notArrayLiteral s.text)
  | .literal form value =>
    if form = .string ∧ (shape.base ≠ .int ∨ shape.sizes.length ≠ 1) then
      failType (.stringTarget s.text)
    else value.fit shape pad

/-- What is expected of the expression at some place. -/
structure Target where
  shape : Option ArrayShape := none
  event : Option String := none
  pad : Bool := true

/-- The **expression** of a text. -/
def parse (text : String) (target : Target := {}) : Result Expr := do
  let s ← read text
  match s.meaning, target.shape with
  | .literal _ _, some shape => return .array (← s.fit shape target.pad)
  | .literal .string _, none => failType (.stringPlace text)
  | m, _ => return m.expr.withEvent target.event

/-- The expression of a text where the data of an event can be read. -/
def parseFor (event : Option String) (text : String) : Result Expr :=
  parse text { event := event }

end Source

end ChartNet
