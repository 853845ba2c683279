import ChartNet.Number.Dyadic
import ChartNet.Number.Reading

/-!
# Arithmetic on doubles beyond the basic operations

The operations of constant expressions that need a rule of their own: the remainder takes the
sign of the dividend and is exact, the smaller and the larger of two numbers tell the two zeros
apart, and a power with an exponent that is no number, or of one to an infinite exponent, is no
number.
-/

namespace ChartNet.Number

/-- The double `± n · 2 ^ e`, for values that a double can hold exactly. -/
def scaled (negative : Bool) (n : Nat) (e : Int) : Float :=
  let x := Float.scaleB (Float.ofNat n) e
  if negative then -x else x

/-- The **remainder** of a division that rounds towards zero. -/
def remainder (x y : Float) : Float :=
  match dyadic? x, dyadic? y with
  | some a, some b =>
    if b.significand = 0 then undefinedNumber
    else
      let e := min a.exponent b.exponent
      let n := a.significand * twoPow (a.exponent - e).toNat
      let d := b.significand * twoPow (b.exponent - e).toNat
      scaled a.negative (n % d) e
  | some _, none => if y.isNaN then undefinedNumber else x
  | none, _ => undefinedNumber

/-- Whether a number is the zero with a negative sign. -/
def isNegativeZero (x : Float) : Bool :=
  x == 0 && decide (twoPow 63 ≤ x.toBits.toNat)

/-- The **smaller** of two numbers. -/
def smaller (x y : Float) : Float :=
  if x.isNaN || y.isNaN then undefinedNumber
  else if x < y then x
  else if y < x then y
  else if isNegativeZero x then x else y

/-- The **larger** of two numbers. -/
def larger (x y : Float) : Float :=
  if x.isNaN || y.isNaN then undefinedNumber
  else if x < y then y
  else if y < x then x
  else if isNegativeZero x then y else x

/-- The **power** of two numbers. -/
def power (x y : Float) : Float :=
  if y.isNaN then undefinedNumber
  else if x.abs == 1 && y.isInf then undefinedNumber
  else Float.pow x y

/-- A number without its fractional part. -/
def truncate (x : Float) : Float :=
  match dyadic? x with
  | some d =>
    if d.isWhole then x
    else if d.negative then -Float.ofNat d.wholePart else Float.ofNat d.wholePart
  | none => x

end ChartNet.Number
