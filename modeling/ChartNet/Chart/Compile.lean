import ChartNet.Automaton
import ChartNet.Chart.Body
import ChartNet.Chart.Data
import ChartNet.Chart.Probability

/-!
# Compiling charts

A chart becomes an **automaton**. Each transition is one edge, with a destination per target whose
body runs the steps on leaving the state, those of the target, and those on entering the target.
An automaton must never block an event that its chart handles in some state, so states that do
not handle it get a loop that ignores it; this does not hold for root charts, nor for events that
automata synchronise on explicitly.
-/

namespace ChartNet

/-- What all charts of a model share: the **capacity** of arrays without a size, the types of the
variables and constants of the model, and the constants. -/
structure Setting where
  capacity : Size
  globals : TypeLookup
  constants : Constants

/-- The surroundings of the bodies of an automaton. -/
def Setting.scope (setting : Setting) (a : Automaton) (event : Option String := none) :
    BodyScope where
  automaton := a.name
  vars n := ((a.getVariable? n).map (·.type)) <|> setting.globals n
  capacity := setting.capacity
  event

/-! ### What the transitions of a state have claimed -/

/-- The **key** under which transitions claim their event. The empty text stands for having none, so
transitions without an event share their key with those on an event of the empty name, which the
schema of charts does not let through. -/
def claimKey (event : Option String) : String :=
  event.getD ""

/-- The transitions of a **state** so far: for each the key of its event, and its condition, if it
has one. -/
structure StateRecord where
  id : String
  claims : List (String × Option Expr) := []

namespace StateRecord

/-- The conditions of the transitions on an event, or of those without one. -/
def conditions (r : StateRecord) (event : Option String) : List Expr :=
  r.claims.filterMap fun (key, cond) => if key = claimKey event then cond else none

/-- Whether a transition on an event, or without one, has no condition. -/
def isUnconditional (r : StateRecord) (event : Option String) : Bool :=
  r.claims.contains (claimKey event, none)

/-- The events of the transitions: first of those without a condition, then of the others. -/
def events (r : StateRecord) : List String :=
  let (always, sometimes) := r.claims.partition (·.2.isNone)
  ((always ++ sometimes).map (·.1)).filter (· != claimKey none)

end StateRecord

namespace Chart

/-- The state of a name. -/
def state? (c : Chart) (id : String) : Option State :=
  c.states.find? (·.id == id)

/-- The state of a name, which must be there. -/
def state (c : Chart) (id : String) : Result State :=
  match c.state? id with
  | some s => .ok s
  | none => failModel (.noState id c.name)

/-- Fails if two states have the same name. -/
def checkStates (seen : List String) : List State → Result Unit
  | [] => .ok ()
  | s :: ss =>
    if seen.contains s.id then failModel (.stateTwice s.id) else checkStates (s.id :: seen) ss

/-! ### Transitions -/

/-- The text of a condition as a part of a digest. -/
def conditionPart (cond : Option String) : Json :=
  (cond.map Json.str).getD .null

/-- The **action** of a transition: receiving its event, or a name of its own. -/
def transitionAction (state : String) (t : Transition) : String :=
  match t.event with
  | some event => receiveAction event
  | none => "transition-" ++ state ++ "-eventless-" ++ digest [.str state, conditionPart t.cond]

/-- A target of a transition with its probability and its state. -/
structure Way where
  target : Target
  probability : Float
  state : State

/-- The targets of a transition with their probabilities and states. -/
def ways (c : Chart) (constants : Constants) (t : Transition) : Result (List Way) := do
  let targets := t.goal.targets
  let probabilities ← targetProbabilities constants targets
  (targets.zip probabilities).mapM fun (target, probability) => do
    return { target, probability, state := ← c.state target.target }

/-- The bodies of the targets of a transition; `total` is the probability of the ones before. -/
def bodies (scope : BodyScope) (s : State) (t : Transition) (total : Float) :
    List Way → EventM (List Body)
  | [] => return []
  | w :: ws => do
    let total := total + w.probability
    let path : BodyPath :=
      { source := s.id, target := w.target.target
        digest := digest [.str s.id, .str w.target.target, .str (transitionAction s.id t),
          conditionPart t.cond, .str (Number.text total)] }
    let steps := s.onExit.getD [] ++ w.target.body.getD [] ++ w.state.onEntry.getD []
    let body ← scope.compile path (.real w.probability) steps
    return body :: (← bodies scope s t total ws)

/-- The automaton with the edges of a **transition**. -/
def transition (c : Chart) (setting : Setting) (a : Automaton) (r : StateRecord) (s : State)
    (t : Transition) : EventM (Automaton × Option Expr) := do
  let ways ← .ofResult (c.ways setting.constants t)
  let action := transitionAction s.id t
  if let some event := t.event then
    modify (·.addReceiver event a.name action)
  let condition ← .ofResult (t.cond.mapM Source.parse)
  let guard := (guardAfter (r.conditions t.event) condition).withEvent t.event
  let found ← bodies (setting.scope a t.event) s t 0 ways
  let edge : Edge :=
    { location := s.id, action := some action, guard := some guard
      destinations := found.map (·.head) }
  let a := (a.addEdges (edge :: found.flatMap (·.edges))).addLocations (found.flatMap (·.locations))
  return (a, condition)

/-- How a transition is called in errors: by its event, or by its position. -/
def transitionLabel (t : Transition) (position : Nat) : String :=
  t.event.getD ("eventless#" ++ Number.natText position)

/-- The automaton with the edges of the transitions of a state from a position on. -/
def transitions (c : Chart) (setting : Setting) (s : State) (position : Nat) (a : Automaton)
    (r : StateRecord) : List Transition → EventM (Automaton × StateRecord)
  | [] => return (a, r)
  | t :: ts => do
    if r.isUnconditional t.event then
      .ofResult (failModel (.unconditionalTwice s.id (t.event.filter (· != claimKey none))))
    let (a, condition) ← Build.within
      { state := some s.id, transition := some (transitionLabel t position) }
      (c.transition setting a r s t)
    let r := { r with claims := r.claims ++ [(claimKey t.event, condition)] }
    c.transitions setting s (position + 1) a r ts

/-- The automaton with a **state** and the edges of its transitions. -/
def stateEdges (c : Chart) (setting : Setting) (a : Automaton) (s : State) :
    EventM (Automaton × StateRecord) :=
  Build.within { state := some s.id } do
    let ts := s.transitions.getD []
    let (a, r) ← c.transitions setting s 0 (a.addLocation s.id) { id := s.id } ts
    if ts.any (·.event.isSome) && r.isUnconditional none then
      .ofResult (failModel (.eventsNeverFire s.id))
    return (a, r)

/-- The automaton with states and the edges of their transitions. -/
def allStates (c : Chart) (setting : Setting) (a : Automaton) :
    List State → EventM (Automaton × List StateRecord)
  | [] => return (a, [])
  | s :: ss => do
    let (a, r) ← c.stateEdges setting a s
    let (a, rs) ← c.allStates setting a ss
    return (a, r :: rs)

/-! ### Loops and the start -/

/-- The loop by which a state **ignores** an event, unless it handles or blocks it. -/
def loop? (r : StateRecord) (event : String) : Option Edge :=
  let conditions := r.conditions (some event)
  if r.isUnconditional (some event) || (conditions.isEmpty && isSynched event) then none
  else
    some
      { location := r.id, action := some (receiveAction event)
        guard :=
          if conditions.isEmpty then none
          else some ((guardAfter conditions none).withEvent (some event))
        destinations := [{ location := some r.id }] }

/-- The loops of the states of a chart; a state that can always leave needs none. -/
def loops (records : List StateRecord) : List Edge :=
  let handled := (records.flatMap (·.events)).eraseDups
  records.flatMap fun r => if r.isUnconditional none then [] else handled.filterMap (loop? r)

/-- The automaton with its **start**: the initial state, or a location from which the steps on
entering that state run once. -/
def start (c : Chart) (setting : Setting) (a : Automaton) : EventM Automaton := do
  let first ← .ofResult (c.state c.initial)
  match first.onEntry.getD [] with
  | [] => return a.setInitial first.id
  | steps =>
    let source := first.id ++ "-first-exec"
    let path : BodyPath :=
      { source, target := first.id, digest := digest [.str source, .str first.id, .str "onentry"] }
    let part ← Build.within { state := some source }
      ((setting.scope a).fragment path none none steps)
    return ((a.setInitial source).addEdges part.edges).addLocations part.locations

/-- **Compiles** a chart to its automaton, and registers its events. -/
def compile (c : Chart) (setting : Setting) : EventM Automaton :=
  Build.within { automaton := some c.name } do
    .ofResult (checkStates [] c.states)
    let _ ← .ofResult (c.state c.initial)
    let events ← get
    let types : TypeLookup := fun n => setting.globals n <|> events.variableType? n
    let a ← .ofResult (Automaton.declareData setting.capacity types { name := c.name }
      (c.datamodel.getD []))
    let (a, records) ← c.allStates setting a c.states
    let a := if c.isRoot then a else a.addEdges (loops records)
    c.start setting a

end Chart

end ChartNet
