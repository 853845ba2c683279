/-!
# Operators

The operators of expressions form a closed table. Each has an **opcode**, its name in a model,
and names a **role** for each of its operands; the order of the roles is the order of the
operands everywhere. Operators are grouped by the number of their operands. The **macros** are
abbreviations that a finished model does not contain.
-/

namespace ChartNet

/-- Operators with one operand. -/
inductive UnaryOp where
  | not | abs | floor | ceil | sin | cos | round | toCm | toM | toDeg | toRad
deriving DecidableEq

/-- Operators with two operands. -/
inductive BinaryOp where
  | and | or | implies | eq | ne | lt | le | gt | ge
  | add | sub | mul | div | mod | pow | log | min | max
  | access | norm2d | intersect | distance
deriving DecidableEq

/-- Operators with three operands. -/
inductive TernaryOp where
  | ite | comprehension | distanceToPoint
deriving DecidableEq

/-- Operators with four operands. -/
inductive QuaternaryOp where
  | dot2d | cross2d
deriving DecidableEq

/-- The opcode of an operator. -/
def UnaryOp.code : UnaryOp → String
  | .not => "¬"
  | .abs => "abs"
  | .floor => "floor"
  | .ceil => "ceil"
  | .sin => "sin"
  | .cos => "cos"
  | .round => "round"
  | .toCm => "to_cm"
  | .toM => "to_m"
  | .toDeg => "to_deg"
  | .toRad => "to_rad"

/-- The opcode of an operator. -/
def BinaryOp.code : BinaryOp → String
  | .and => "∧"
  | .or => "∨"
  | .implies => "⇒"
  | .eq => "="
  | .ne => "≠"
  | .lt => "<"
  | .le => "≤"
  | .gt => ">"
  | .ge => "≥"
  | .add => "+"
  | .sub => "-"
  | .mul => "*"
  | .div => "/"
  | .mod => "%"
  | .pow => "pow"
  | .log => "log"
  | .min => "min"
  | .max => "max"
  | .access => "aa"
  | .norm2d => "norm2d"
  | .intersect => "intersect"
  | .distance => "distance"

/-- The opcode of an operator. -/
def TernaryOp.code : TernaryOp → String
  | .ite => "ite"
  | .comprehension => "ac"
  | .distanceToPoint => "distance_to_point"

/-- The opcode of an operator. -/
def QuaternaryOp.code : QuaternaryOp → String
  | .dot2d => "dot2d"
  | .cross2d => "cross2d"

/-- The roles of the two operands. -/
def BinaryOp.roles : BinaryOp → String × String
  | .access => ("exp", "index")
  | .norm2d => ("x", "y")
  | .intersect | .distance => ("robot", "barrier")
  | _ => ("left", "right")

/-- The roles of the three operands. -/
def TernaryOp.roles : TernaryOp → String × String × String
  | .ite => ("if", "then", "else")
  | .comprehension => ("var", "length", "exp")
  | .distanceToPoint => ("robot", "x", "y")

/-- Whether an operator is a **macro**. -/
def UnaryOp.isMacro : UnaryOp → Bool
  | .round | .toCm | .toM | .toDeg | .toRad => true
  | _ => false

/-- Whether an operator is a macro. -/
def BinaryOp.isMacro : BinaryOp → Bool
  | .norm2d | .intersect | .distance => true
  | _ => false

/-- Whether an operator is a macro. -/
def TernaryOp.isMacro : TernaryOp → Bool
  | .distanceToPoint => true
  | _ => false

/-- An entry of the operator table: an operator, or the list of the elements of an array. -/
inductive Opcode where
  | elements
  | unary (op : UnaryOp)
  | binary (op : BinaryOp)
  | ternary (op : TernaryOp)
  | quaternary (op : QuaternaryOp)
deriving DecidableEq

namespace Opcode

/-- How an entry of the table is written in a model. -/
def code : Opcode → String
  | elements => "av"
  | unary op => op.code
  | binary op => op.code
  | ternary op => op.code
  | quaternary op => op.code

/-- The **roles** of the operands, in order. -/
def roles : Opcode → List String
  | elements => ["elements"]
  | unary _ => ["exp"]
  | binary op => [op.roles.1, op.roles.2]
  | ternary op => [op.roles.1, op.roles.2.1, op.roles.2.2]
  | quaternary _ => ["x1", "y1", "x2", "y2"]

/-- The operator table. -/
def table : List Opcode :=
  [elements] ++
  ([.not, .abs, .floor, .ceil, .sin, .cos, .round, .toCm, .toM, .toDeg, .toRad] :
    List UnaryOp).map unary ++
  ([.and, .or, .implies, .eq, .ne, .lt, .le, .gt, .ge, .add, .sub, .mul, .div, .mod, .pow, .log,
    .min, .max, .access, .norm2d, .intersect, .distance] : List BinaryOp).map binary ++
  ([.ite, .comprehension, .distanceToPoint] : List TernaryOp).map ternary ++
  ([.dot2d, .cross2d] : List QuaternaryOp).map quaternary

/-- The table lists every entry. -/
theorem mem_table (o : Opcode) : o ∈ table := by
  cases o with
  | elements => decide
  | unary op => cases op <;> decide
  | binary op => cases op <;> decide
  | ternary op => cases op <;> decide
  | quaternary op => cases op <;> decide

/-- Other spellings of opcodes that are read. -/
def aliases : List (String × Opcode) :=
  [("&&", binary .and), ("and", binary .and), ("||", binary .or), ("or", binary .or),
    ("!", unary .not), ("=>", binary .implies), ("==", binary .eq), ("!=", binary .ne),
    ("<=", binary .le), (">=", binary .ge)]

/-- The entry that a spelling stands for. -/
def ofCode? (s : String) : Option Opcode :=
  match table.find? (·.code == s) with
  | some o => some o
  | none => (aliases.find? (·.1 == s)).map (·.2)

end Opcode

end ChartNet
