import ChartNet.Expr.Basic

/-!
# Macros of the plane and of units

Lengths and products of plane vectors, rounding to the nearest whole number, and conversions
between metres and whole centimetres, radians and whole degrees, in terms of the operators of a
model.
-/

namespace ChartNet.Macro

open ChartNet.Expr

/-- The sum of two expressions. -/
def plus (a b : Expr) : Expr := binary .add a b

/-- The difference of two expressions. -/
def minus (a b : Expr) : Expr := binary .sub a b

/-- The product of two expressions. -/
def times (a b : Expr) : Expr := binary .mul a b

/-- The quotient of two expressions. -/
def quot (a b : Expr) : Expr := binary .div a b

/-- The **length** of a vector. -/
def norm2d (x y : Expr) : Expr :=
  binary .pow (plus (times x x) (times y y)) (real 0.5)

/-- The **cross product** of two vectors. -/
def cross2d (x₁ y₁ x₂ y₂ : Expr) : Expr :=
  minus (times x₁ y₂) (times y₁ x₂)

/-- The **inner product** of two vectors. -/
def dot2d (x₁ y₁ x₂ y₂ : Expr) : Expr :=
  plus (times x₁ x₂) (times y₁ y₂)

/-- The nearest whole number; a half is rounded up. -/
def round (a : Expr) : Expr :=
  unary .floor (plus a (real 0.5))

/-- Metres in whole centimetres. -/
def toCm (a : Expr) : Expr :=
  round (times a (real 100))

/-- Centimetres in metres. -/
def toM (a : Expr) : Expr :=
  times a (real 0.01)

/-- Radians in whole degrees of one turn. -/
def toDeg (a : Expr) : Expr :=
  binary .mod (round (times a (quot (int 180) (lit (.constant .pi))))) (int 360)

/-- Degrees in radians. -/
def toRad (a : Expr) : Expr :=
  times a (quot (lit (.constant .pi)) (int 180))

end ChartNet.Macro
