/-!
# Numbers read from text

A number is written as digits, an optional fraction and an optional exponent. It stands for the
double nearest to that decimal; a decimal beyond the range of doubles is infinite or zero.
-/

namespace ChartNet.Number

/-- The value of a run of digits. -/
def natOfDigits (ds : List Char) : Nat :=
  ds.foldl (fun n c => 10 * n + (c.toNat - '0'.toNat)) 0

/-- Past this power of ten every decimal is infinite or zero. -/
def decimalRange : Int := 400

/-- Infinity. -/
def infinity : Float := 1.0 / 0.0

/-- What is no number. -/
def undefinedNumber : Float := 0.0 / 0.0

/-- The double **nearest** to `digits · 10 ^ exponent`, where `count` is the number of digits. -/
def nearest (digits : Nat) (count : Nat) (exponent : Int) : Float :=
  if digits = 0 then 0.0
  else if decimalRange < count + exponent then infinity
  else if count + exponent < -decimalRange then 0.0
  else
    match exponent with
    | .ofNat e => Float.ofScientific digits false e
    | .negSucc e => Float.ofScientific digits true (e + 1)

/-- The exponent at the end of a numeral: `e`, an optional sign and digits. -/
def exponentOf : List Char → Int
  | 'e' :: cs => signed cs
  | 'E' :: cs => signed cs
  | _ => 0
where
  /-- A run of digits with an optional sign. -/
  signed : List Char → Int
    | '-' :: cs => -(natOfDigits cs : Int)
    | '+' :: cs => natOfDigits cs
    | cs => natOfDigits cs

/-- The double that a **numeral** stands for: digits, an optional point with digits, an optional
exponent. -/
def ofNumeral (cs : List Char) : Float :=
  let front := cs.takeWhile Char.isDigit
  let rest := cs.dropWhile Char.isDigit
  let (fraction, tail) :=
    match rest with
    | '.' :: r => (r.takeWhile Char.isDigit, r.dropWhile Char.isDigit)
    | r => ([], r)
  let ds := (front ++ fraction).dropWhile (· == '0')
  nearest (natOfDigits ds) ds.length (exponentOf tail - fraction.length)

end ChartNet.Number
