import ChartNet.Automaton.Edge
import ChartNet.Automaton.Variable

/-!
# Automata

An **automaton** has locations, edges between them and variables of its own. Its locations are
those that were added and those that its edges mention; they stand in the order in which they
first came up.
-/

namespace ChartNet

/-- A list with an element added at its end, unless it is there. -/
def insertLast {α : Type} [DecidableEq α] (a : α) (l : List α) : List α :=
  if a ∈ l then l else l ++ [a]

theorem mem_insertLast {α : Type} [DecidableEq α] {a b : α} {l : List α} :
    b ∈ insertLast a l ↔ b = a ∨ b ∈ l := by
  unfold insertLast
  split
  · constructor
    · exact .inr
    · rintro (rfl | h) <;> assumption
  · simp [or_comm]

theorem nodup_insertLast {α : Type} [DecidableEq α] {a : α} {l : List α} (h : l.Nodup) :
    (insertLast a l).Nodup := by
  unfold insertLast
  split
  · exact h
  · rename_i ha
    rw [List.nodup_append]
    exact ⟨h, by simp, fun x hx y hy => by simp at hy; subst hy; exact fun he => ha (he ▸ hx)⟩

/-- An **automaton** under construction. -/
structure Automaton where
  name : String
  locations : List String := []
  initial : Option String := none
  edges : List Edge := []
  vars : List Variable := []
deriving DecidableEq

namespace Automaton

/-- The automaton with one more location. -/
def addLocation (a : Automaton) (location : String) : Automaton :=
  { a with locations := insertLast location a.locations }

/-- The automaton with more locations. -/
def addLocations (a : Automaton) (locations : List String) : Automaton :=
  locations.foldl addLocation a

/-- The automaton with its initial location. -/
def setInitial (a : Automaton) (location : String) : Automaton :=
  { a.addLocation location with initial := some location }

/-- The initial location, which must have been set. -/
def initialLocation (a : Automaton) : Result String :=
  match a.initial with
  | some l => .ok l
  | none => failModel (.noInitial a.name)

/-- The automaton with one more edge, and with the locations that the edge mentions. -/
def addEdge (a : Automaton) (edge : Edge) : Automaton :=
  let locations := edge.location :: edge.destinations.filterMap (·.location)
  { a.addLocations locations with edges := a.edges ++ [edge] }

/-- The automaton with more edges. -/
def addEdges (a : Automaton) (edges : List Edge) : Automaton :=
  edges.foldl addEdge a

/-- The automaton with other edges; locations stay. -/
def replaceEdges (a : Automaton) (edges : List Edge) : Automaton :=
  { a with edges := [] }.addEdges edges

/-- The automaton without the edges of an action. -/
def removeAction (a : Automaton) (action : String) : Automaton :=
  { a with edges := a.edges.filter fun e => e.action != some action }

/-- How many edges an action has. -/
def countAction (a : Automaton) (action : String) : Nat :=
  a.edges.countP fun e => e.action == some action

/-- The **actions** of the edges, each once, in the order of their first edge. -/
def actions (a : Automaton) : List String :=
  (a.edges.filterMap (·.action)).eraseDups

/-- The variable of a name. -/
def getVariable? (a : Automaton) (name : String) : Option Variable :=
  a.vars.find? (·.name == name)

/-- The automaton with one more variable, whose name must be new. -/
def addVariable (a : Automaton) (v : Variable) : Result Automaton :=
  if (a.getVariable? v.name).isSome then failModel (.variableTwice v.name a.name)
  else .ok { a with vars := a.vars ++ [v] }

end Automaton

end ChartNet
