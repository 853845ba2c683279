import ChartNet.Text.Blank
import ChartNet.Text.Pattern

/-!
# Character sets in brackets

In patterns for names, a **bracket** such as `[a-c_]` stands for one of the characters in it, and
one that starts with `!` or `^` for any other. A closing bracket right at the start is a member, a
backslash takes the next character with it, and `[:alpha:]` names a class.
-/

namespace ChartNet

/-- A **part** of a bracket. -/
inductive BracketPart where
  | unit (u : Nat)
  | dash
  | ranges (rs : List (Nat × Nat))
deriving DecidableEq

/-- What stands in a **bracket**: its text, whether all others are meant, and its parts. -/
structure Bracket where
  content : List Char
  inverted : Bool
  named : Bool
  parts : List BracketPart
deriving DecidableEq

namespace Bracket

/-! ### Classes -/

/-- The greatest unit. -/
def lastUnit : Nat := 0xFFFF

/-- The units from `first` on that are in none of some ranges; these stand in order, apart from each
other and above `first`. -/
def gaps (first : Nat) : List (Nat × Nat) → List (Nat × Nat)
  | [] => [(first, lastUnit)]
  | r :: rs => (first, r.1 - 1) :: gaps (r.2 + 1) rs

/-- The digits. -/
def digits : List (Nat × Nat) := [(0x30, 0x39)]

/-- The characters of words. -/
def wordUnits : List (Nat × Nat) := [(0x30, 0x39), (0x41, 0x5A), (0x5F, 0x5F), (0x61, 0x7A)]

/-- The classes that have a name. -/
def classes : List (String × List (Nat × Nat)) :=
  [("alnum", [(0x30, 0x39), (0x41, 0x5A), (0x61, 0x7A)]), ("alpha", [(0x41, 0x5A), (0x61, 0x7A)]),
    ("ascii", [(0, 0x7F)]), ("blank", [(0x9, 0x9), (0x20, 0x20)]),
    ("cntrl", [(0, 0x1F), (0x7F, 0x7F)]), ("digit", digits), ("graph", [(0x21, 0x7E)]),
    ("lower", [(0x61, 0x7A)]), ("print", [(0x20, 0x7E)]),
    ("punct", [(0x21, 0x2F), (0x3A, 0x40), (0x5B, 0x60), (0x7B, 0x7E)]),
    ("space", [(0x9, 0xD), (0x20, 0x20)]), ("upper", [(0x41, 0x5A)]), ("word", wordUnits),
    ("xdigit", [(0x30, 0x39), (0x41, 0x46), (0x61, 0x66)])]

/-- The class that a text names with `:name:]`, and the length of that text. -/
def class? (cs : List Char) : Option (List (Nat × Nat) × Nat) :=
  match cs with
  | ':' :: rest =>
    let name := rest.takeWhile (· != ':')
    match rest.drop name.length, classes.lookup (String.ofList name) with
    | ':' :: ']' :: _, some rs => some (rs, name.length + 3)
    | _, _ => none
  | _ => none

/-- The set that a **letter** after a backslash stands for: digits, characters of words and blanks,
and with a capital letter all others. -/
def letterClass? : Char → Option (List (Nat × Nat))
  | 'd' => some digits
  | 'D' => some (gaps 0 digits)
  | 'w' => some wordUnits
  | 'W' => some (gaps 0 wordUnits)
  | 's' => some Text.blankRanges
  | 'S' => some (gaps 0 Text.blankRanges)
  | _ => none

/-- The control character that a letter after a backslash stands for. -/
def control? : Char → Option Nat
  | 'n' => some 0xA
  | 'r' => some 0xD
  | 't' => some 0x9
  | 'v' => some 0xB
  | 'f' => some 0xC
  | _ => none

/-! ### Reading -/

/-- The parts of a character that stands for itself. -/
def plainParts (c : Char) : List BracketPart :=
  (Text.unitsOf c).map .unit

/-- The parts of a character after a backslash. -/
def escapedParts (c : Char) : List BracketPart :=
  match letterClass? c, control? c with
  | some rs, _ => [.ranges rs]
  | none, some u => [.unit u]
  | none, none => plainParts c

/-- The parts from here to the closing bracket, whether one of them is a class by name, and how many
characters this takes, without the bracket; `fuel` is at least the length of the text. -/
def scan : Nat → List Char → Option (List BracketPart × Bool × Nat)
  | 0, _ | _, [] => none
  | _, ']' :: _ => some ([], false, 0)
  | fuel + 1, '\\' :: c :: cs =>
    (scan fuel cs).map fun (ps, named, n) => (escapedParts c ++ ps, named, n + 2)
  | fuel + 1, '-' :: cs => (scan fuel cs).map fun (ps, named, n) => (.dash :: ps, named, n + 1)
  | fuel + 1, c :: cs =>
    match if c = '[' then class? cs else none with
    | some (rs, k) =>
      (scan fuel (cs.drop k)).map fun (ps, _, n) => (.ranges rs :: ps, true, n + k + 1)
    | none => (scan fuel cs).map fun (ps, named, n) => (plainParts c ++ ps, named, n + 1)

/-- The **bracket** whose text follows an opening bracket, and the text after it. -/
def read? (cs : List Char) : Option (Bracket × List Char) :=
  let mark := if cs.head? = some '!' || cs.head? = some '^' then 1 else 0
  let body := cs.drop mark
  let first := if body.head? = some ']' then 1 else 0
  (scan (cs.length + 1) (body.drop first)).map fun (ps, named, n) =>
    let k := mark + first + n
    ({ content := cs.take k, inverted := mark == 1, named
       parts := (body.take first).flatMap plainParts ++ ps }, cs.drop (k + 1))

/-! ### Sets -/

/-- The unit that a part is, if it is one. -/
def unitOf? : BracketPart → Option Nat
  | .unit u => some u
  | .dash => some '-'.toNat
  | .ranges _ => none

/-- The ranges of a part by itself. -/
def rangesOf : BracketPart → List (Nat × Nat)
  | .unit u => [(u, u)]
  | .dash => [('-'.toNat, '-'.toNat)]
  | .ranges rs => rs

/-- The **ranges** of some parts: a dash between two units stands for all between them. -/
def ranges : List BracketPart → List (Nat × Nat)
  | p :: .dash :: q :: ps =>
    match unitOf? p, unitOf? q with
    | some a, some b => (a, b) :: ranges ps
    | _, _ => rangesOf p ++ ranges (.dash :: q :: ps)
  | p :: ps => rangesOf p ++ ranges ps
  | [] => []

/-- Whether every range of a bracket has its ends in order. -/
def isOrdered (b : Bracket) : Bool :=
  (ranges b.parts).all fun r => decide (r.1 ≤ r.2)

/-- The set of a bracket; one that means all other characters does not mean the units `besides`. -/
def toSet (b : Bracket) (besides : List Nat := []) : Text.UnitSet where
  ranges := ranges b.parts ++ if b.inverted then besides.map fun u => (u, u) else []
  inverted := b.inverted

end Bracket

end ChartNet
