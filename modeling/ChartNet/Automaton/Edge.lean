import ChartNet.Automaton.Rank
import ChartNet.Error

/-!
# Edges

An **edge** leads from a location to one of its destinations, each with a probability and with
assignments. Assignments happen in the order of their indexes, which are ranks; those of one index
happen at the same time.
-/

namespace ChartNet

/-- An **assignment** to a variable or an array element. -/
structure Assignment where
  ref : Expr
  value : Expr
  index : Rank := .zero
deriving DecidableEq

/-- A **destination** of an edge. -/
structure Destination where
  location : Option String
  probability : Expr := .real 1
  assignments : List Assignment := []
deriving DecidableEq

/-- An **edge**; only those that draw a random value have no action. -/
structure Edge where
  location : String
  action : Option String := none
  guard : Option Expr := none
  destinations : List Destination
deriving DecidableEq

/-- Whether an expression can be assigned to. -/
def Expr.isTarget : Expr → Bool
  | ident _ | binary .access _ _ => true
  | _ => false

/-- An assignment, whose target must be a variable or an array element. -/
def Assignment.make (ref value : Expr) (index : Rank := .zero) : Result Assignment :=
  if ref.isTarget then .ok { ref, value, index } else failModel .assignmentTarget

/-- The first index after those of some assignments. -/
def nextIndex (assignments : List Assignment) : Rank :=
  match assignments.map (·.index) with
  | [] => .zero
  | i :: is => (is.foldl Rank.max i).next

/-- Assignments with one more in front of those whose indexes are not lower. -/
def insertAssignment (a : Assignment) : List Assignment → List Assignment
  | [] => [a]
  | b :: bs => if a.index.le b.index then a :: b :: bs else b :: insertAssignment a bs

/-- Assignments in the order of their indexes; those of one index keep their order. -/
def sortAssignments (assignments : List Assignment) : List Assignment :=
  assignments.foldr insertAssignment []

/-- The location of a destination of an edge. -/
def Edge.targetOf (edge : Edge) (d : Destination) : Result String :=
  match d.location with
  | some l => .ok l
  | none => failModel (.noDestination edge.location edge.action)

end ChartNet
