import ChartNet.Number.Text
import ChartNet.Text.Split
import ChartNet.Text.Units

/-!
# Ranges in braces

A glob may count: `{1..3}` stands for the numbers from one to three, `{a..e..2}` for every second
letter from `a` to `e`, and `{01..10}` for numbers of two digits. Such a glob stands for all globs
with one of the members in place of the braces.
-/

namespace ChartNet.Glob

/-- The whole number that a text is, with its sign. -/
def wholeNumber? (cs : List Char) : Option Int :=
  let digits (ds : List Char) : Option Nat :=
    if ds.isEmpty || !ds.all Char.isDigit then none
    else some (ds.foldl (fun n c => 10 * n + (c.toNat - '0'.toNat)) 0)
  match cs with
  | '-' :: ds => (digits ds).map fun n => -(n : Int)
  | '+' :: ds => (digits ds).map fun n => (n : Int)
  | ds => (digits ds).map fun n => (n : Int)

/-- Whether a text is a number with zeros before it, so that all members get as many digits. -/
def hasZeros (cs : List Char) : Bool :=
  let ds := if cs.head? = some '-' then cs.drop 1 else cs
  ds != ['0'] && ds.head? == some '0'

/-- A whole number with zeros before its digits, so that its text has a width. -/
def padded (width : Nat) (n : Int) : List Char :=
  let ds := (Number.natText n.natAbs).toList
  let sign := if n < 0 then ['-'] else []
  sign ++ List.replicate (width - sign.length - ds.length) '0' ++ ds

/-- The numbers from `first` on, `step` apart, `count` of them, upwards or downwards. -/
def progression (first : Int) (step : Nat) (up : Bool) (count : Nat) : List Int :=
  (List.range count).map fun k => if up then first + (step * k : Nat) else first - (step * k : Nat)

/-- All numbers from one to another, both included if the step hits them. -/
def between (first last : Int) (step : Nat) : List Int :=
  progression first step (decide (first ≤ last)) ((last - first).natAbs / step + 1)

/-- The greatest number of members of a range. -/
def widestRange : Nat := 1000

/-- The letter that an end of a range of letters is: one character, or the first digit of a
number. -/
def letter? (cs : List Char) : Option Nat :=
  match cs with
  | [] => none
  | c :: rest =>
    if c.toNat < 0x10000 && (rest.isEmpty || (wholeNumber? cs).isSome) then some c.toNat else none

/-- The **members** of a range: numbers if both ends are, otherwise letters; none if it is no
range. -/
def members (first last : List Char) (step : Option (List Char)) : List (List Char) :=
  match wholeNumber? (step.getD ['1']) with
  | none => []
  | some s =>
    let stride := max s.natAbs 1
    match wholeNumber? first, wholeNumber? last with
    | some a, some b =>
      let texts := [first, last, step.getD ['1']]
      let width := if texts.any hasZeros then texts.foldl (fun n t => max n t.length) 0 else 0
      if widestRange ≤ (b - a).natAbs / stride then []
      else (between a b stride).map (padded width)
    | _, _ =>
      match letter? first, letter? last with
      | some a, some b => (between a b stride).map fun n => [Char.ofNat n.toNat]
      | _, _ => []

/-- The ends and the step of a range that a text between braces is. -/
def rangeParts? (body : List Char) : Option (List Char × List Char × Option (List Char)) :=
  match Text.splitChars '.' body with
  | [a, [], b] => if a.isEmpty || b.isEmpty then none else some (a, b, none)
  | [a, [], b, [], s] =>
    if a.isEmpty || b.isEmpty || s.isEmpty then none else some (a, b, some s)
  | _ => none

/-- The length of a bracket after its opening sign, if it is closed. -/
def bracketLength? (cs : List Char) : Option Nat :=
  let inside := cs.takeWhile (· != ']')
  if inside.length < cs.length then some (inside.length + 1) else none

/-- The texts that a glob with **ranges** stands for; `fuel` is at least its length. A backslash
keeps a brace as it is, and so do a dollar sign and a bracket. -/
def expandFrom : Nat → List Char → List (List Char)
  | 0, cs => [cs]
  | _, [] => [[]]
  | fuel + 1, '\\' :: c :: cs => (expandFrom fuel cs).map ('\\' :: c :: ·)
  | fuel + 1, '$' :: '\x7b' :: cs => (expandFrom fuel cs).map ('$' :: '\x7b' :: ·)
  | fuel + 1, '[' :: cs =>
    let n := (bracketLength? cs).getD 0
    (expandFrom fuel (cs.drop n)).map ('[' :: cs.take n ++ ·)
  | fuel + 1, '\x7b' :: cs =>
    let body := cs.takeWhile fun c => c != '\x7d' && c != '\x7b'
    let found :=
      match cs.drop body.length, rangeParts? body with
      | '\x7d' :: _, some (a, b, s) => members a b s
      | _, _ => []
    if found.isEmpty then (expandFrom fuel cs).map ('\x7b' :: ·)
    else
      let rests := expandFrom fuel (cs.drop (body.length + 1))
      found.flatMap fun m => rests.map (m ++ ·)
  | fuel + 1, c :: cs => (expandFrom fuel cs).map (c :: ·)

/-- The globs that a glob with ranges stands for. -/
def expand (text : String) : List String :=
  ((expandFrom text.length text.toList).map String.ofList).eraseDups.filter (!·.isEmpty)

end ChartNet.Glob
