import ChartNet.Macro.Geometry

/-!
# Expanding macros

`Expr.expand` replaces every macro in an expression by operators of a model. It fails only at
the macros of the robot's world: if a name is not plain, if a barrier is unknown, or if the
constants do not say how many vertices the boundary has.
-/

namespace ChartNet

/-- The **constants** of a model with their values. -/
abbrev Constants := List (String × Expr)

/-- The value of a constant. -/
def Constants.get? (constants : Constants) (name : String) : Option Expr :=
  (constants.find? (·.1 == name)).map (·.2)

/-- The number that a literal is. -/
def Literal.number? : Literal → Option Float
  | .num _ x => some x
  | .constant c => some c.value
  | .bool _ => none

namespace Macro

/-- The number of vertices of the boundary that the constants give. -/
def boundariesOf (constants : Constants) : Result Nat :=
  boundaryCount <|
    match constants.get? boundaryCountName with
    | some (.lit v) => v.number?
    | _ => none

/-- The name that an operand must be. -/
def nameOperand (role op : String) : Expr → Result String
  | .ident n => .ok n
  | _ => failType (.operandNotName role op)

/-- The expansion of a unary operator over an expanded operand. -/
def expandUnary : UnaryOp → Expr → Expr
  | .round, a => round a
  | .toCm, a => toCm a
  | .toM, a => toM a
  | .toDeg, a => toDeg a
  | .toRad, a => toRad a
  | op, a => .unary op a

/-- The expansion of a binary operator over expanded operands. -/
def expandBinary : BinaryOp → Expr → Expr → Expr
  | .norm2d, a, b => norm2d a b
  | op, a, b => .binary op a b

/-- The expansion of an operator with four operands over expanded operands. -/
def expandQuaternary : QuaternaryOp → Expr → Expr → Expr → Expr → Expr
  | .dot2d, a, b, c, d => dot2d a b c d
  | .cross2d, a, b, c, d => cross2d a b c d

end Macro

open Macro in
/-- The **expansion** of all macros in an expression. -/
def Expr.expand (constants : Constants) : Expr → Result Expr
  | ident n => .ok (ident n)
  | lit v => .ok (lit v)
  | uniform l u => .ok (uniform l u)
  | array v => .ok (array v)
  | unary op a => do return expandUnary op (← a.expand constants)
  | binary op a b =>
    match op with
    | .intersect => do
      let robot ← nameOperand "robot" op.code a
      let barrier ← Barrier.ofName (← nameOperand "barrier" op.code b)
      return intersect robot barrier (← boundariesOf constants)
    | .distance => do
      let robot ← nameOperand "robot" op.code a
      let barrier ← Barrier.ofName (← nameOperand "barrier" op.code b)
      return distance robot barrier (← boundariesOf constants)
    | op => do
      let x ← a.expand constants
      let y ← b.expand constants
      return expandBinary op x y
  | ternary op a b c =>
    match op with
    | .distanceToPoint => do
      let robot ← nameOperand "robot" op.code a
      let x ← b.expand constants
      let y ← c.expand constants
      return distanceToPoint robot x y
    | op => do
      let x ← a.expand constants
      let y ← b.expand constants
      let z ← c.expand constants
      return ternary op x y z
  | quaternary op a b c d => do
    let x₁ ← a.expand constants
    let y₁ ← b.expand constants
    let x₂ ← c.expand constants
    let y₂ ← d.expand constants
    return expandQuaternary op x₁ y₁ x₂ y₂

end ChartNet
