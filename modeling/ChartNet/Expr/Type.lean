import ChartNet.Expr.Basic
import ChartNet.Number.Size

/-!
# Data types

A **data type** is a scalar, a numeric scalar with bounds, or an array of numbers with a
capacity per dimension.
-/

namespace ChartNet

/-- The **scalar** types. -/
inductive Scalar where
  | bool
  | int
  | real
deriving DecidableEq

/-- The scalar type of a kind of numbers. -/
def NumKind.toScalar : NumKind → Scalar
  | .int => .int
  | .real => .real

/-- The name of a scalar type. -/
def Scalar.name : Scalar → String
  | .bool => "bool"
  | .int => "int"
  | .real => "real"

/-- Base and capacities, outermost first, of an array. -/
structure ArrayShape where
  base : NumKind
  sizes : List Size
deriving DecidableEq

/-- A **data type**. -/
inductive DataType where
  | scalar (s : Scalar)
  | bounded (base : NumKind) (lower upper : Option Expr)
  | array (shape : ArrayShape)
deriving DecidableEq

namespace DataType

/-- The type of truth values. -/
def bool : DataType := scalar .bool

/-- The type of whole numbers. -/
def int : DataType := scalar .int

/-- The type of numbers. -/
def real : DataType := scalar .real

/-- Whether a type is an array. -/
def isArray : DataType → Bool
  | array _ => true
  | _ => false

/-- The scalar type as which a value of a type takes part in arithmetic. -/
def base : DataType → Scalar
  | scalar s => s
  | bounded b _ _ => b.toScalar
  | array a => a.base.toScalar

/-- The name of a type in messages. -/
def describe : DataType → String
  | scalar s => s.name
  | bounded b _ _ => "bounded " ++ b.name
  | array a => a.base.name ++ "".intercalate (a.sizes.map fun s => "[" ++ s.text ++ "]")

end DataType

end ChartNet
