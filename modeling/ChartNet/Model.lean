import ChartNet.Automaton
import ChartNet.Build
import ChartNet.Composition
import ChartNet.Property

/-!
# Models

A **model** has global variables and constants, automata with their composition, and the
properties to verify. Names of globals, of automata and of properties are unique. Every action of
an automaton takes part in some synchronisation of the composition; an action that no vector
mentions gets a vector of its own.
-/

namespace ChartNet

/-- The description of a model that is given none. -/
def defaultDescription : String := "Generated from state-charts by chart2jani"

/-- A **model** under construction. -/
structure Model where
  name : String
  description : String := defaultDescription
  vars : List Variable := []
  constants : List Constant := []
  automata : List Automaton := []
  composition : Option Composition := none
  properties : List Property := []

/-- A computation that builds a model and may fail. -/
abbrev ModelM (α : Type) := Build Model α

namespace Model

/-! ### Globals -/

/-- The global variable of a name. -/
def getVariable? (m : Model) (name : String) : Option Variable :=
  m.vars.find? (·.name == name)

/-- The constant of a name. -/
def getConstant? (m : Model) (name : String) : Option Constant :=
  m.constants.find? (·.name == name)

/-- Whether a name is that of a global variable or constant. -/
def isGlobal (m : Model) (name : String) : Bool :=
  (m.getVariable? name).isSome || (m.getConstant? name).isSome

/-- The **type** of a global variable or constant. -/
def typeOf (m : Model) : TypeLookup := fun name =>
  ((m.getVariable? name).map (·.type)) <|> ((m.getConstant? name).map (·.type))

/-- The model with one more global variable, whose name must be new. -/
def addVariable (v : Variable) (m : Model) : Result Model :=
  if m.isGlobal v.name then failModel (.globalTwice v.name)
  else .ok { m with vars := m.vars ++ [v] }

/-- The model with one more constant, whose name must be new. -/
def addConstant (c : Constant) (m : Model) : Result Model :=
  if m.isGlobal c.name then failModel (.globalTwice c.name)
  else .ok { m with constants := m.constants ++ [c] }

/-- The values of the constants. -/
def constantValues (m : Model) : Constants :=
  m.constants.map fun c => (c.name, c.value)

/-- Adds global variables one by one. -/
def addVariables : List Variable → ModelM Unit
  | [] => return
  | v :: vs => do
    .change (addVariable v)
    addVariables vs

/-! ### Automata and properties -/

/-- The automaton of a name. -/
def automaton? (m : Model) (name : String) : Option Automaton :=
  m.automata.find? (·.name == name)

/-- The model with one more automaton, whose name must be new. -/
def addAutomaton (a : Automaton) (m : Model) : Result Model :=
  if (m.automaton? a.name).isSome then failModel (.automatonTwice a.name)
  else .ok { m with automata := m.automata ++ [a] }

/-- The model without the edges of an action. -/
def removeAction (m : Model) (action : String) : Model :=
  { m with automata := m.automata.map (·.removeAction action) }

/-- How many edges an action has. -/
def countAction (m : Model) (action : String) : Nat :=
  m.automata.foldl (fun n a => n + a.countAction action) 0

/-- The **actions** of all automata, each once, in order. -/
def actions (m : Model) : List String :=
  Text.sortByUnits (m.automata.flatMap (·.actions)).eraseDups

/-- The model with one more property, whose name must be new. -/
def addProperty (p : Property) (m : Model) : Result Model :=
  if m.properties.any (·.name == p.name) then failModel (.propertyTwice p.name)
  else .ok { m with properties := m.properties ++ [p] }

/-! ### Composition -/

/-- The composition of the model, which must have been set. -/
def requireComposition (m : Model) : Result Composition :=
  match m.composition with
  | some c => .ok c
  | none => failModel (.noComposition m.name)

/-- The model after a change of its composition. -/
def changeComposition (f : Composition → Result Composition) (m : Model) : Result Model := do
  let c ← f (← m.requireComposition)
  return { m with composition := some c }

/-- The actions of an automaton that do not take part in a composition. -/
def uncovered (c : Composition) (a : Automaton) : List String :=
  let synced := c.syncedActions a.name
  a.actions.filter (!synced.contains ·)

/-- Adds a vector of its own for each of some actions of an automaton. -/
def coverActions (automaton : String) : List String → ModelM Unit
  | [] => return
  | action :: rest => do
    .change (changeComposition (·.addSync action [(automaton, action)]))
    coverActions automaton rest

/-- Adds the vectors that some automata lack. -/
def coverAutomata : List Automaton → ModelM Unit
  | [] => return
  | a :: rest => do
    let c ← .ofResult (← get).requireComposition
    coverActions a.name (uncovered c a)
    coverAutomata rest

/-- **Completes** the composition: every action that no vector mentions gets one of its own. -/
def completeComposition : ModelM Unit := do
  let m ← get
  let _ ← .ofResult m.requireComposition
  coverAutomata m.automata

/-- Fails unless the elements of a composition are the automata. -/
def checkElements (m : Model) (c : Composition) : Result Unit :=
  let names := m.automata.map (·.name)
  let missing := names.filter (!c.elements.contains ·)
  let unknown := c.elements.filter (!names.contains ·)
  if missing.isEmpty && unknown.isEmpty then .ok ()
  else failModel (.compositionElements missing unknown)

/-- **Sets** the composition, which must list every automaton, and completes it. -/
def setComposition (c : Composition) : ModelM Unit := do
  .ofResult ((← get).checkElements c)
  modify fun m => { m with composition := some c }
  completeComposition

end Model

end ChartNet
