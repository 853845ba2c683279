import ChartNet.Text.Case
import ChartNet.Text.Units

/-!
# Patterns of text

A **pattern** describes texts by their units: sequences, alternatives and repetitions of sets of
units, and conditions on the place where it stands. `Pattern.advance` says to which places of a text
a pattern leads from given places; a text is accepted if the pattern leads from its start to its
end. Every set of places is finite, so repetitions come to an end.
-/

namespace ChartNet.Text

/-- A **set of units**: those in some ranges, both ends included, or all others. -/
structure UnitSet where
  ranges : List (Nat × Nat)
  inverted : Bool := false
deriving DecidableEq

namespace UnitSet

/-- The set of one unit. -/
def single (u : Nat) : UnitSet where
  ranges := [(u, u)]

/-- All units. -/
def all : UnitSet where
  ranges := []
  inverted := true

/-- All units that do not end a line. -/
def inLine : UnitSet where
  ranges := [(0xA, 0xA), (0xD, 0xD), (0x2028, 0x2029)]
  inverted := true

/-- All units but one. -/
def butNot (u : Nat) : UnitSet where
  ranges := [(u, u)]
  inverted := true

/-- Whether a set **has** a unit, or one that is the same letter if case does not count. -/
def has (anyCase : Bool) (s : UnitSet) (u : Nat) : Bool :=
  (s.ranges.any fun r =>
    (decide (r.1 ≤ u) && decide (u ≤ r.2)) ||
      (anyCase && (List.range (r.2 + 1 - r.1)).any fun k => sameLetter (r.1 + k) u)) != s.inverted

end UnitSet

/-- A **pattern** of texts. -/
inductive Pattern where
  | empty
  | never
  | unit (s : UnitSet)
  | seq (p q : Pattern)
  | either (p q : Pattern)
  | many (p : Pattern)
  | notAhead (p : Pattern)
  | start
  | stop
deriving DecidableEq

namespace Pattern

/-! ### Places -/

/-- The places that are reached by steps from the `frontier`, together with those `seen`; `fuel`
bounds the number of rounds. -/
def grow (step : List Nat → List Nat) : Nat → List Nat → List Nat → List Nat
  | 0, seen, _ => seen
  | fuel + 1, seen, frontier =>
    match ((step frontier).filter fun i => !seen.contains i).eraseDups with
    | [] => seen
    | found => grow step fuel (seen ++ found) found

/-- The **places** to which a pattern leads from some places in a text. -/
def advance (anyCase : Bool) (text : List Nat) : Pattern → List Nat → List Nat
  | empty, places => places
  | never, _ => []
  | unit s, places => places.filterMap fun i =>
    (text[i]?).bind fun u => if s.has anyCase u then some (i + 1) else none
  | seq p q, places => q.advance anyCase text (p.advance anyCase text places)
  | either p q, places =>
    (p.advance anyCase text places ++ q.advance anyCase text places).eraseDups
  | many p, places => grow (p.advance anyCase text) (text.length + 1) places places
  | notAhead p, places => places.filter fun i => (p.advance anyCase text [i]).isEmpty
  | start, places => places.filter (· == 0)
  | stop, places => places.filter (· == text.length)

/-- Whether a pattern **accepts** a list of units as a whole. -/
def acceptsUnits (p : Pattern) (text : List Nat) (anyCase : Bool := false) : Bool :=
  (p.advance anyCase text [0]).contains text.length

/-- Whether a pattern **accepts** a text. -/
def accepts (p : Pattern) (text : String) (anyCase : Bool := false) : Bool :=
  p.acceptsUnits (units text) anyCase

/-! ### Common patterns -/

/-- One pattern after the other. -/
def all (ps : List Pattern) : Pattern :=
  ps.foldr seq empty

/-- One of some patterns. -/
def oneOf (ps : List Pattern) : Pattern :=
  ps.foldr either never

/-- A pattern or nothing. -/
def optional (p : Pattern) : Pattern :=
  either p empty

/-- A pattern at least once. -/
def oneOrMore (p : Pattern) : Pattern :=
  seq p (many p)

/-- The condition that a pattern follows. -/
def ahead (p : Pattern) : Pattern :=
  notAhead (notAhead p)

/-- A given list of characters. -/
def chars (cs : List Char) : Pattern :=
  all ((cs.flatMap unitsOf).map fun u => unit (.single u))

/-- A given text. -/
def text (s : String) : Pattern :=
  chars s.toList

/-- Any characters in a line, perhaps none. -/
def anything : Pattern :=
  many (unit .inLine)

/-- Any characters in a line, at least one. -/
def something : Pattern :=
  oneOrMore (unit .inLine)

/-! ### Rules -/

theorem grow_nil {step : List Nat → List Nat} (h : step [] = []) (fuel : Nat) :
    grow step fuel [] [] = [] := by
  cases fuel <;> simp [grow, h]

/-- From no place a pattern leads nowhere. -/
@[simp] theorem advance_nil (anyCase : Bool) (t : List Nat) (p : Pattern) :
    p.advance anyCase t [] = [] := by
  induction p with
  | seq p q hp hq => simp [advance, hp, hq]
  | either p q hp hq => simp [advance, hp, hq]
  | many p hp => exact grow_nil hp _
  | _ => simp [advance]

/-- The empty pattern accepts the empty text only. -/
theorem accepts_empty (t : List Nat) (anyCase : Bool) :
    acceptsUnits empty t anyCase = t.isEmpty := by
  cases t <;> simp [acceptsUnits, advance]

end Pattern

end ChartNet.Text
