/-!
# Doubles as whole numbers times powers of two

A finite double is `± significand · 2 ^ exponent`. Everything that has to be exact about
numbers (which digits are printed, which numbers are whole, remainders) starts from this view.
-/

namespace ChartNet.Number

/-- A **dyadic** number: `± significand · 2 ^ exponent`. -/
structure Dyadic where
  negative : Bool
  significand : Nat
  exponent : Int
deriving DecidableEq

/-- The power of two with an exponent. -/
def twoPow (n : Nat) : Nat := Nat.pow 2 n

/-- The power of ten with an exponent. -/
def tenPow (n : Nat) : Nat := Nat.pow 10 n

/-- The smallest exponent of a double; subnormal numbers have it too. -/
def leastExponent : Int := -1074

/-- The exact value of a finite double; `none` for the infinities and for what is no number. -/
def dyadic? (x : Float) : Option Dyadic :=
  let bits := x.toBits.toNat
  let field := bits / twoPow 52 % twoPow 11
  let fraction := bits % twoPow 52
  let negative := decide (twoPow 63 ≤ bits)
  if field = twoPow 11 - 1 then none
  else if field = 0 then some ⟨negative, fraction, leastExponent⟩
  else some ⟨negative, twoPow 52 + fraction, leastExponent + (field - 1 : Nat)⟩

/-- The absolute value of a dyadic number without its fractional part. -/
def Dyadic.wholePart (d : Dyadic) : Nat :=
  match d.exponent with
  | .ofNat k => d.significand * twoPow k
  | .negSucc k => d.significand / twoPow (k + 1)

/-- Whether a dyadic number has no fractional part. -/
def Dyadic.isWhole (d : Dyadic) : Bool :=
  match d.exponent with
  | .ofNat _ => true
  | .negSucc k => d.significand % twoPow (k + 1) == 0

/-- Whether a double is a **whole number**; the infinities are none. -/
def isWhole (x : Float) : Bool :=
  match dyadic? x with
  | some d => d.isWhole
  | none => false

/-- The natural number that a double is, if it is one. -/
def toNat? (x : Float) : Option Nat :=
  match dyadic? x with
  | some d => if d.isWhole && (!d.negative || d.significand == 0) then some d.wholePart else none
  | none => none

end ChartNet.Number
