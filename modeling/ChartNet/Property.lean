import ChartNet.Expr.Jani
import ChartNet.Macro.Expand
import ChartNet.Source

/-!
# Properties

A **property** asks for the least or greatest probability of a path formula from the initial
states: that something holds eventually or always, or until something else does. The operands of
a formula are expression text, or expressions in their JSON form; a number of steps may bound
the formula.
-/

namespace ChartNet

/-- The functions that a **filter** applies to the values of the states that it selects. -/
inductive FilterFunction where
  | min
  | max
  | sum
  | avg
  | count
  | forAll
  | forSome
  | argmin
  | argmax
  | values
deriving DecidableEq

/-- The name of a filter function. -/
def FilterFunction.name : FilterFunction → String
  | min => "min"
  | max => "max"
  | sum => "sum"
  | avg => "avg"
  | count => "count"
  | forAll => "∀"
  | forSome => "∃"
  | argmin => "argmin"
  | argmax => "argmax"
  | values => "values"

/-- All filter functions. -/
def FilterFunction.all : List FilterFunction :=
  [min, max, sum, avg, count, forAll, forSome, argmin, argmax, values]

/-- Which **probability** a property asks for. -/
inductive Extremum where
  | least
  | greatest
deriving DecidableEq

/-- The name of the operator for a probability. -/
def Extremum.name : Extremum → String
  | least => "Pmin"
  | greatest => "Pmax"

/-- The path operators with one operand. -/
inductive UnaryPath where
  | eventually
  | always
deriving DecidableEq

/-- The name of a path operator. -/
def UnaryPath.name : UnaryPath → String
  | eventually => "F"
  | always => "G"

/-- The path operators with two operands. -/
inductive BinaryPath where
  | untilStrong
  | untilWeak
deriving DecidableEq

/-- The name of a path operator. -/
def BinaryPath.name : BinaryPath → String
  | untilStrong => "U"
  | untilWeak => "W"

/-- What is to hold along a path, over operands of some type. -/
inductive Path (α : Type) where
  | unary (op : UnaryPath) (a : α)
  | binary (op : BinaryPath) (a b : α)
deriving DecidableEq

/-- Bounds on a number of steps; one of them may be missing. -/
structure StepBounds (α : Type) where
  lower : Option α
  upper : Option α
deriving DecidableEq

/-- A **path formula** over operands of some type. -/
structure PathFormula (α : Type) where
  path : Path α
  comment : Option String := none
  bounds : Option (StepBounds α) := none
deriving DecidableEq

/-- A **property** over operands of some type: a filter of the initial states. -/
structure PropertyOver (α : Type) where
  name : String
  filter : FilterFunction
  extremum : Extremum
  formula : PathFormula α
deriving DecidableEq

/-- A **property** of a model. -/
abbrev Property := PropertyOver Expr

/-! ### Reading -/

open Schema

/-- The schema of step bounds, over the schema of operands. -/
def stepBoundsSchema (operand : Schema Json) : Schema (StepBounds Json) :=
  refine "step-bounds needs a lower or an upper bound"
    (fun b => b.lower.isSome || b.upper.isSome) <|
    strictObject (StepBounds.mk <$> field "lower" (optional operand)
      <*> field "upper" (optional operand))

/-- The members that all path formulas have, after those of their own. -/
def formulaFields (operand : Schema Json) (path : Fields (Path Json)) : Fields (PathFormula Json) :=
  PathFormula.mk <$> path <*> field "comment" (optional text)
    <*> field "step-bounds" (optional (stepBoundsSchema operand))

/-- A path formula with one operand. -/
def unaryFormula (operand : Schema Json) (op : UnaryPath) : String × Schema (PathFormula Json) :=
  (op.name, strictObject (formulaFields operand
    ((fun _ a => Path.unary op a) <$> field "op" text <*> field "exp" operand)))

/-- A path formula with two operands. -/
def binaryFormula (operand : Schema Json) (op : BinaryPath) : String × Schema (PathFormula Json) :=
  (op.name, strictObject (formulaFields operand
    ((fun _ a b => Path.binary op a b) <$> field "op" text <*> field "left" operand
      <*> field "right" operand)))

/-- The schema of path formulas. -/
def formulaSchema (operand : Schema Json) : Schema (PathFormula Json) :=
  tagged "op" [unaryFormula operand .eventually, unaryFormula operand .always,
    binaryFormula operand .untilStrong, binaryFormula operand .untilWeak]

/-- The schema of properties, over the schema of operands. -/
def propertySchema (operand : Schema Json) : Schema (PropertyOver Json) :=
  let values := strictObject
    (Prod.mk <$> field "op" (oneOf [("Pmin", Extremum.least), ("Pmax", .greatest)])
      <*> field "exp" (formulaSchema operand))
  let expression := strictObject
    ((fun _ f v _ => (f, v)) <$> field "op" (exactly "filter")
      <*> field "fun" (oneOf (FilterFunction.all.map fun f => (f.name, f)))
      <*> field "values" values
      <*> field "states" (strictObject (field "op" (exactly "initial"))))
  strictObject ((fun name (f, e, p) => ⟨name, f, e, p⟩) <$> field "name" nonEmpty
    <*> field "expression" expression)

/-- The expression of an operand: a text is expression text, anything else is in JSON form. -/
def operandExpr (path : String) : Json → Result Expr
  | .str s => Source.parse s
  | j => Expr.ofJson j path

/-- The formula over the expressions of its operands; bounds are read first. -/
def PathFormula.readOperands (path : String) (f : PathFormula Json) :
    Result (PathFormula Expr) := do
  let bounds ← f.bounds.mapM fun b => do
    let lower ← b.lower.mapM (operandExpr (path ++ ".step-bounds.lower"))
    let upper ← b.upper.mapM (operandExpr (path ++ ".step-bounds.upper"))
    return { lower, upper : StepBounds Expr }
  let body ←
    match f.path with
    | .unary op a => do pure (Path.unary op (← operandExpr (path ++ ".exp") a))
    | .binary op a b => do
      let left ← operandExpr (path ++ ".left") a
      let right ← operandExpr (path ++ ".right") b
      pure (Path.binary op left right)
  return { path := body, comment := f.comment, bounds }

/-- **Reads** a property. -/
def Property.ofJson (j : Json) : Result Property :=
  match (propertySchema (exprSchema j.depth)).read j with
  | .ok p => do
    return { name := p.name, filter := p.filter, extremum := p.extremum
             formula := ← p.formula.readOperands p.name }
  | .error issues =>
    match issues.head? with
    | some i => failModel (.propertyForm i.place i.message)
    | none => failModel (.propertyForm "<root>" "invalid value")

/-! ### Writing -/

/-- The JSON form of an expression whose macros are expanded. -/
def Expr.expandedJson (constants : Constants) (e : Expr) : Result Json := do
  return (← e.expand constants).toJson

/-- The JSON form of a path formula. -/
def PathFormula.toJson (constants : Constants) (f : PathFormula Expr) : Result Json := do
  let body : List (String × Json) ←
    match f.path with
    | .unary op a => do pure [("op", .str op.name), ("exp", ← a.expandedJson constants)]
    | .binary op a b => do
      let left ← a.expandedJson constants
      let right ← b.expandedJson constants
      pure [("op", .str op.name), ("left", left), ("right", right)]
  let bounds ← f.bounds.mapM fun b => do
    let lower ← b.lower.mapM (·.expandedJson constants)
    let upper ← b.upper.mapM (·.expandedJson constants)
    return Json.fields [("lower", lower), ("upper", upper)]
  return .fields <| [("comment", f.comment.map Json.str)] ++ body.map (fun m => (m.1, some m.2)) ++
    [("step-bounds", bounds)]

/-- The **JSON form** of a property, with its macros expanded. -/
def Property.toJson (constants : Constants) (p : Property) : Result Json := do
  let formula ← p.formula.toJson constants
  return .obj [("name", .str p.name),
    ("expression", .obj [("op", .str "filter"), ("fun", .str p.filter.name),
      ("values", .obj [("op", .str p.extremum.name), ("exp", formula)]),
      ("states", .obj [("op", .str "initial")])])]

end ChartNet
