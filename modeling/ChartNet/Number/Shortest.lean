import ChartNet.Number.Dyadic

/-!
# The fewest digits that read back

A double stands for an interval of real numbers: those that round to it. `shortest?` selects,
among the decimals in that interval, one with the **fewest digits**, and of two such decimals
the nearer; an exact tie goes to the even digit. The test of a candidate is exact arithmetic on
natural numbers.
-/

namespace ChartNet.Number

/-- A **decimal**: `digits · 10 ^ exponent`. -/
structure Decimal where
  digits : Nat
  exponent : Int
deriving DecidableEq

/-- The digits of a natural number in base ten, most significant first. -/
def digitsOf (n : Nat) : List Char :=
  Nat.toDigits 10 n

/-- The real numbers that round to a double, as numerators over one denominator. The ends belong
to the interval if `closed`. -/
structure Interval where
  low : Nat
  value : Nat
  high : Nat
  denominator : Nat
  closed : Bool

/-- The **rounding interval** of `m · 2 ^ q`: it ends half way to the neighbouring doubles. Below
a power of two the neighbour is only half as far. -/
def Interval.around (m : Nat) (q : Int) : Interval :=
  let below := if m = twoPow 52 ∧ leastExponent < q then 1 else 2
  let up := twoPow (q - 2).toNat
  { low := (4 * m - below) * up
    value := 4 * m * up
    high := (4 * m + 2) * up
    denominator := twoPow (2 - q).toNat
    closed := m % 2 == 0 }

/-- The interval measured in steps of `10 ^ e`. -/
def Interval.inSteps (i : Interval) (e : Int) : Interval :=
  let up := tenPow (-e).toNat
  { i with
    low := i.low * up
    value := i.value * up
    high := i.high * up
    denominator := i.denominator * tenPow e.toNat }

/-- Whether the whole number `n` lies in the interval. -/
def Interval.hits (i : Interval) (n : Nat) : Bool :=
  if i.closed then i.low ≤ n * i.denominator && n * i.denominator ≤ i.high
  else i.low < n * i.denominator && n * i.denominator < i.high

/-- The whole number in the interval that is nearest to its value; between two equally near ones
the even. Only the two neighbours of the value can be nearest. -/
def Interval.nearest? (i : Interval) : Option Nat :=
  let n := i.value / i.denominator
  let rest := i.value % i.denominator
  match i.hits n, i.hits (n + 1) with
  | true, true =>
    if 2 * rest < i.denominator then some n
    else if i.denominator < 2 * rest then some (n + 1)
    else if n % 2 = 0 then some n else some (n + 1)
  | true, false => some n
  | false, true => some (n + 1)
  | false, false => none

/-- The exponent of the leading digit: `10 ^ e ≤ value < 10 ^ (e + 1)`. -/
def Interval.leading (i : Interval) : Int :=
  if i.denominator ≤ i.value then (digitsOf (i.value / i.denominator)).length - 1
  else -((digitsOf ((i.denominator - 1) / i.value)).length : Int)

/-- The **shortest** decimal that reads back as `m · 2 ^ q`: the first number of digits, from one
to seventeen, on whose grid the rounding interval has a point. -/
def shortest? (m : Nat) (q : Int) : Option Decimal :=
  let i := Interval.around m q
  (List.range 17).findSome? fun (k : Nat) =>
    let e := i.leading - k
    (i.inSteps e).nearest?.map (⟨·, e⟩)

end ChartNet.Number
