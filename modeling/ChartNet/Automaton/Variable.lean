import ChartNet.Expr.Jani
import ChartNet.Expr.Typing

/-!
# Variables

A **variable** has a type and starts from an initial value: zero, `false`, or an array of zeros if
none is given. An array variable comes with its length variables; those of the first dimension
are ints, those of a later one are int arrays over the dimensions before it.
-/

namespace ChartNet

/-- A **variable**; a transient one has no value of its own between steps. -/
structure Variable where
  name : String
  type : DataType
  init : Expr
  transient : Bool := false
deriving DecidableEq

/-- A declared **constant**. -/
structure Constant where
  name : String
  type : DataType
  value : Expr
deriving DecidableEq

/-- The value from which a variable of a type starts if none is given. -/
def DataType.default : DataType → Expr
  | scalar .bool => .bool false
  | scalar .int => .int 0
  | scalar .real => .real 0
  | bounded base _ _ => .lit (.num base 0)
  | array shape => .array (zeroArray shape)

/-- Whether the capacities of a type can hold something. -/
def DataType.hasRoom : DataType → Bool
  | array shape => shape.sizes.all (·.isPositive)
  | _ => true

/-- A variable with the given type and initial value; arrays need room in every dimension. -/
def Variable.make (name : String) (type : DataType) (init : Option Expr := none)
    (transient : Bool := false) : Result Variable :=
  if type.hasRoom then .ok { name, type, init := init.getD type.default, transient }
  else failModel (.arraySize name)

/-- The type of the length variable of a dimension, counted from one. -/
def ArrayShape.lengthType (shape : ArrayShape) (dimension : Nat) : DataType :=
  if dimension = 1 then .int else .array ⟨.int, shape.sizes.take (dimension - 1)⟩

/-- The **length variables** of an array variable, with their initial values if they are given. -/
def lengthVariables (name : String) (shape : ArrayShape) (lengths : List Element := [])
    (transient : Bool := false) : Result (List Variable) :=
  (List.range shape.sizes.length).mapM fun i =>
    Variable.make (lengthName name (i + 1)) (shape.lengthType (i + 1))
      (lengths[i]?.map Element.toExpr) transient

/-- The JSON form of the type of an array of some depth. -/
def arrayTypeJson (base : NumKind) : Nat → Json
  | 0 => .str base.name
  | n + 1 => .obj [("kind", .str "array"), ("base", arrayTypeJson base n)]

/-- The JSON form of a type; capacities have none. -/
def DataType.toJson : DataType → Json
  | scalar s => .str s.name
  | bounded base lower upper =>
    .fields [("kind", some (.str "bounded")), ("base", some (.str base.name)),
      ("lower-bound", lower.map (·.toJson)), ("upper-bound", upper.map (·.toJson))]
  | array shape => arrayTypeJson shape.base shape.sizes.length

end ChartNet
