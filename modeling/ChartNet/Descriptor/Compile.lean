import ChartNet.Chart.Compile
import ChartNet.Descriptor
import ChartNet.Model.Delivery
import ChartNet.Model.Printer
import ChartNet.Model.Random

/-!
# Compiling descriptors

A descriptor becomes a **model** in a fixed order: the world and the constants, the declared
events, one automaton per chart, the variables of the events, the composition, the expansion of
random assignments, and the properties. The first thing that is wrong ends the compilation.
-/

namespace ChartNet

/-- Charts by the references to them. -/
abbrev Charts := List (String × Chart)

namespace Descriptor

/-- The value of a declared constant before its type is checked. -/
def constantValue (known : Constants) : ConstantSource → Result ConstantValue
  | .number x => .ok (.num x)
  | .truth b => .ok (.bool b)
  | .source text => do (← Source.parse text).evaluate known

/-- The **constant** of a declaration, over the constants declared before it. -/
def constant (known : Constants) (d : ConstantDecl) : Result Constant := do
  let value ← constantValue known d.value
  let make (e : Expr) : Result Constant :=
    .ok { name := d.name, type := .scalar d.type, value := e }
  let refuse : Result Constant := failConfig (.constantType d.name d.type value.text)
  match d.type, value with
  | .bool, .bool b => make (.bool b)
  | .int, .num x => if Number.isWhole x then make (.int x) else refuse
  | .real, .num x => make (.real x)
  | _, _ => refuse

/-- Declares constants one by one. -/
def declareConstants : List ConstantDecl → ModelM Unit
  | [] => return
  | d :: ds => do
    let c ← .ofResult (constant (← get).constantValues d)
    .change (Model.addConstant c)
    declareConstants ds

/-- The types of the fields of a declared event. -/
def fieldTypes (capacity : Size) (d : EventDecl) : Result (List (String × DataType)) :=
  d.fields.mapM fun (field, type) => do return (field, (← DeclaredType.ofText type capacity).type)

/-- The **events** that are declared. -/
def declaredEvents (d : Descriptor) : Result Events :=
  d.events.foldlM (fun es e => do es.declare e.name (← fieldTypes d.capacity e)) {}

/-- The chart of an entry; a reference must be among the given charts. -/
def chartOf (charts : Charts) : ChartEntry → Result Chart
  | .inline c => .ok c
  | .reference r =>
    match charts.lookup r with
    | some c => .ok c
    | none => failConfig (.chartNotLoaded r)

/-- Adds the automata of charts, and gives the events with those that the charts register. -/
def addCharts (setting : Setting) (events : Events) : List Chart → ModelM Events
  | [] => return events
  | c :: cs => do
    let (r, events) := (c.compile setting).run.run events
    let a ← .ofResult r
    .change (Model.addAutomaton a)
    addCharts setting events cs

/-- Adds properties one by one. -/
def addProperties : List Json → ModelM Unit
  | [] => return
  | j :: js => do
    let p ← .ofResult (Property.ofJson j)
    .change (Model.addProperty p)
    addProperties js

/-- Builds the model of a descriptor. -/
def build (d : Descriptor) (charts : Charts) : ModelM Unit := do
  if let some w := d.world then Model.addWorld w
  declareConstants d.constants
  let events ← .ofResult d.declaredEvents
  let m ← get
  let setting : Setting :=
    { capacity := d.capacity, globals := m.typeOf, constants := m.constantValues }
  let found ← .ofResult (d.charts.mapM (chartOf charts))
  let events ← addCharts setting events found
  let live ← Model.declareEvents events
  let composition ←
    match d.composition with
    | some l => .ofResult (Composition.ofListing l)
    | none => Model.composeEvents live
  Model.setComposition composition
  Model.expandDraws d.randomOptions
  addProperties d.properties

/-- **Compiles** a descriptor to its model and the JSON form of the model. -/
def compile (d : Descriptor) (charts : Charts := []) : Result (Model × Json) :=
  let start : Model := { name := d.name, description := d.description.getD defaultDescription }
  match (d.build charts).run.run start with
  | (.ok (), m) => do return (m, ← m.toJson)
  | (.error e, _) => .error e

end Descriptor

end ChartNet
