import ChartNet.Expr.Draw
import ChartNet.Expr.Printer
import ChartNet.Model

/-!
# Random assignments

A model cannot assign a random value. An edge whose destination has such an assignment stops before
it in a new location, from which an edge without an action **draws** one of the values, all with
the same probability; another edge then goes on with the assignments that are left. The new
locations are named by the edge, and edges of the same location and action are numbered.
-/

namespace ChartNet

/-- The action of the edges that go on after a draw. -/
def continuationAction : String := "act"

/-- What is left of a destination after its draws were moved away: the assignments before the
first draw, the location where it happens, and the edges from there on. -/
structure Drawn where
  assignments : List Assignment
  location : Option String := none
  edges : List Edge := []

/-- The edge that draws a value for an assignment, from one location to another. -/
def drawEdge (n : Size) (source target : String) (a : Assignment) : Edge :=
  let options := a.value.draws n
  let probability := Expr.real (1 / Float.ofNat options.length)
  { location := source
    destinations := options.map fun value =>
      { location := some target, probability, assignments := [{ ref := a.ref, value }] } }

/-- Moves the **draws** of assignments on the way to `target` to edges of their own; `id` names the
edge, `d` counts its destinations and `i` the assignments. -/
def drawAll (n : Size) (target : String) (id : String) (d i : Nat) : List Assignment → Drawn
  | [] => { assignments := [] }
  | a :: rest =>
    if a.value.isRandom then
      let place := "_dest_" ++ Number.natText d
      let source := id ++ place ++ "_expanded_assign_" ++ Number.natText i
      let after := id ++ place ++ "_after_assign_" ++ Number.natText i
      let left := drawAll n target (after ++ "_" ++ continuationAction) 0 0 rest
      let continuation : Edge :=
        { location := after, action := some continuationAction
          destinations := [{ location := left.location <|> some target
                             assignments := left.assignments }] }
      { assignments := [], location := some source
        edges := drawEdge n source after a :: continuation :: left.edges }
    else
      let left := drawAll n target id d (i + 1) rest
      { left with assignments := a :: left.assignments }

/-- A destination of an edge without draws, and the edges that they became. -/
def Edge.expandDestination (n : Size) (e : Edge) (id : String) (d : Nat) (dest : Destination) :
    Result (Destination × List Edge) :=
  if dest.assignments.any (·.value.isRandom) then do
    let target ← e.targetOf dest
    let drawn := drawAll n target id d 0 dest.assignments
    return ({ dest with location := drawn.location, assignments := drawn.assignments }, drawn.edges)
  else .ok (dest, [])

/-- The **edges** that an edge becomes; one without an action stays as it is. -/
def Edge.expandDraws (n : Size) (e : Edge) (id : String) : Result (List Edge) :=
  match e.action with
  | none => .ok [e]
  | some _ => do
    let parts ← (e.destinations.zipIdx).mapM fun (dest, d) => e.expandDestination n id d dest
    return { e with destinations := parts.map (·.1) } :: parts.flatMap (·.2)

/-- Location and action of an edge, as they name the locations of its draws. -/
def Edge.key (e : Edge) : String :=
  e.location ++ "_" ++ e.action.getD "undefined"

/-- Names of edges by their keys; those of one key are numbered. -/
def numberRepeated (keys : List String) : List String :=
  keys.mapIdx fun k key =>
    if keys.count key < 2 then key
    else key ++ "_" ++ Number.natText ((keys.take k).count key)

/-- The **names** of edges. -/
def edgeIds (edges : List Edge) : List String :=
  numberRepeated (edges.map Edge.key)

/-- The automaton with the draws of its edges moved to edges of their own. -/
def Automaton.expandDraws (n : Size) (a : Automaton) : Result Automaton := do
  let edges ← (a.edges.zip (edgeIds a.edges)).mapM fun (e, id) => e.expandDraws n id
  return a.replaceEdges edges.flatten

/-- Fails if a variable starts from a random value. -/
def Variable.checkInit (automaton : Option String) (v : Variable) : Result Unit :=
  if v.init.isRandom then do
    failModel (.randomInitial v.name automaton (← v.init.print))
  else .ok ()

namespace Model

/-- The model with another automaton of the same name. -/
def replaceAutomaton (m : Model) (a : Automaton) : Model :=
  { m with automata := m.automata.map fun b => if b.name == a.name then a else b }

/-- Expands the draws of automata one by one. -/
def expandAutomata (n : Size) : List Automaton → ModelM Unit
  | [] => return
  | a :: rest => do
    .ofResult (a.vars.forM (·.checkInit (some a.name)))
    let expanded ← .ofResult (a.expandDraws n)
    modify (·.replaceAutomaton expanded)
    expandAutomata n rest

/-- **Expands** all random assignments of a model, with `n` values for each distribution. -/
def expandDraws (n : Size) : ModelM Unit := do
  if !n.isPositive then .ofResult (failModel (.randomOptions n))
  let m ← get
  .ofResult (m.vars.forM (·.checkInit none))
  expandAutomata n m.automata
  if m.composition.isSome then completeComposition

end Model

end ChartNet
