import ChartNet.Json.Printer
import ChartNet.Model

/-!
# The JSON form of a model

A finished model is written in the JANI format. All macros are expanded, locations and actions
stand in order, and so do the assignments of a destination.
-/

namespace ChartNet

/-- The JSON form of an object with one name. -/
private def named (name : String) : Json :=
  .obj [("name", .str name)]

/-- The JSON form of a **variable**. -/
def Variable.toJson (constants : Constants) (v : Variable) : Result Json := do
  let init ← v.init.expandedJson constants
  return .obj [("name", .str v.name), ("type", v.type.toJson), ("transient", .bool v.transient),
    ("initial-value", init)]

/-- The JSON form of a **constant**. -/
def Constant.toJson (constants : Constants) (c : Constant) : Result Json := do
  let value ← c.value.expandedJson constants
  return .obj [("name", .str c.name), ("type", c.type.toJson), ("value", value)]

/-- The JSON form of an **assignment**. -/
def Assignment.toJson (constants : Constants) (a : Assignment) : Result Json := do
  let ref ← a.ref.expandedJson constants
  let value ← a.value.expandedJson constants
  return .obj [("ref", ref), ("value", value), ("index", .num a.index.toFloat)]

/-- The JSON form of a **destination** of an edge. -/
def Edge.destinationJson (constants : Constants) (e : Edge) (d : Destination) : Result Json := do
  let location ← e.targetOf d
  let probability ← d.probability.expandedJson constants
  let assignments ← (sortAssignments d.assignments).mapM (·.toJson constants)
  return .obj [("location", .str location), ("probability", .obj [("exp", probability)]),
    ("assignments", .arr assignments)]

/-- The JSON form of an **edge**. -/
def Edge.toJson (constants : Constants) (e : Edge) : Result Json := do
  let guard ← e.guard.mapM (·.expandedJson constants)
  let destinations ← e.destinations.mapM (e.destinationJson constants)
  return .fields [("location", some (.str e.location)), ("action", e.action.map .str),
    ("guard", guard.map fun g => .obj [("exp", g)]), ("destinations", some (.arr destinations))]

/-- The JSON form of an **automaton**. -/
def Automaton.toJson (constants : Constants) (a : Automaton) : Result Json := do
  let initial ← a.initialLocation
  let edges ← a.edges.mapM (·.toJson constants)
  let vars ← a.vars.mapM (·.toJson constants)
  return .fields [("name", some (.str a.name)),
    ("locations", some (.arr ((Text.sortByUnits a.locations).map named))),
    ("initial-locations", some (.arr [.str initial])),
    ("edges", some (.arr edges)),
    ("variables", if vars.isEmpty then none else some (.arr vars))]

namespace Model

/-- The features of the format that models use. -/
def features : List String := ["arrays", "trigonometric-functions"]

/-- The **JSON form** of a model. -/
def toJson (m : Model) : Result Json := do
  let composition ← m.requireComposition
  let constants := m.constantValues
  let vars ← m.vars.mapM (·.toJson constants)
  let constantForms ← m.constants.mapM (·.toJson constants)
  let automata ← m.automata.mapM (·.toJson constants)
  let properties ← m.properties.mapM (Property.toJson constants)
  return .obj [("jani-version", .num 1), ("name", .str m.name), ("type", .str "mdp"),
    ("features", .arr (features.map .str)),
    ("metadata", .obj [("description", .str m.description)]),
    ("variables", .arr vars), ("constants", .arr constantForms),
    ("actions", .arr (m.actions.map named)), ("automata", .arr automata),
    ("system", composition.toJson), ("properties", .arr properties)]

/-- The **text** of a model in a layout. -/
def serialize (m : Model) (layout : Json.Layout := .blanks 2) : Result String := do
  return (← m.toJson).render layout

end Model

end ChartNet
