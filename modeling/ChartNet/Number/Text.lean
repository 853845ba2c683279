import ChartNet.Number.Shortest

/-!
# The text of a number

Numbers are written with the fewest digits that read back. A `Layout` holds the decisions of
the written form; the models and the diagnostics use one, `layout`: positional notation while
the point stands between the sixth place behind it and the twenty-first before it, otherwise a
signed exponent after `e`. Zero has no sign.
-/

namespace ChartNet.Number

/-- The decisions of a **written form**: between which positions of the point no exponent is
written, and what separates the exponent. -/
structure Layout where
  leastPoint : Int
  greatestPoint : Int
  mark : String
  plus : String
  notNumber : String
  infinite : String

/-- The written form of all numbers in models and messages. -/
def layout : Layout where
  leastPoint := -5
  greatestPoint := 21
  mark := "e"
  plus := "+"
  notNumber := "NaN"
  infinite := "Infinity"

/-- The digits of a decimal without trailing zeros, and the position of the point from the first
digit on. -/
def Decimal.normal (d : Decimal) : List Char × Int :=
  let ds := digitsOf d.digits
  ((ds.reverse.dropWhile (· == '0')).reverse, ds.length + d.exponent)

/-- A whole number with its sign, as an exponent is written. -/
def Layout.exponentText (l : Layout) (e : Int) : String :=
  l.mark ++ (if e < 0 then "-" else l.plus) ++ String.ofList (digitsOf e.natAbs)

/-- A positive decimal in the given form. -/
def Layout.decimal (l : Layout) (d : Decimal) : String :=
  let (ds, point) := d.normal
  let text := String.ofList
  if l.leastPoint ≤ point ∧ point ≤ l.greatestPoint then
    if point ≤ 0 then "0." ++ text (List.replicate (-point).toNat '0') ++ text ds
    else
      let n := point.toNat
      if ds.length ≤ n then text ds ++ text (List.replicate (n - ds.length) '0')
      else text (ds.take n) ++ "." ++ text (ds.drop n)
  else
    let front := text (ds.take 1)
    let back := ds.drop 1
    front ++ (if back.isEmpty then "" else "." ++ text back) ++ l.exponentText (point - 1)

/-- A double in the given form. -/
def Layout.write (l : Layout) (x : Float) : String :=
  match dyadic? x with
  | none => if x.isNaN then l.notNumber else if x < 0 then "-" ++ l.infinite else l.infinite
  | some d =>
    if d.significand = 0 then "0"
    else
      match shortest? d.significand d.exponent with
      | some s => (if d.negative then "-" else "") ++ l.decimal s
      | none => l.notNumber

/-- The **text** of a number. -/
def text (x : Float) : String :=
  layout.write x

/-- The text of a natural number. -/
def natText (n : Nat) : String :=
  String.ofList (digitsOf n)

end ChartNet.Number
