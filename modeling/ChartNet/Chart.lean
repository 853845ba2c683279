import ChartNet.Schema

/-!
# Charts

A **chart** has states and transitions between them. States have steps that run when they are
entered or left; a transition is triggered by an event or happens without one, may have a
condition, and leads to one target or to several with probabilities, each with steps of its own.
Expressions and types are kept as they are written.
-/

namespace ChartNet

/-- A number, or the text of an expression. -/
inductive Amount where
  | number (x : Float)
  | source (text : String)
deriving DecidableEq

/-- A value that is sent with an event. -/
structure Param where
  name : String
  expr : String
deriving DecidableEq

/-- A **step**: an assignment, the sending of an event, or a choice of the first branch whose
condition is true. -/
inductive Step where
  | assign (location expr : String)
  | send (event : String) (params : Option (List Param))
  | choose (branches : List (String × List Step)) (otherwise : Option (List Step))

/-- One of several **targets** of a transition; the last may leave its probability out. -/
structure Target where
  target : String
  prob : Option Amount := none
  body : Option (List Step) := none

/-- Where a transition leads. -/
inductive Goal where
  | single (target : String) (body : Option (List Step))
  | several (targets : List Target)

/-- The targets that a goal stands for. -/
def Goal.targets : Goal → List Target
  | single target body => [{ target, body }]
  | several targets => targets

/-- A **transition**. -/
structure Transition where
  event : Option String := none
  cond : Option String := none
  goal : Goal

/-- A **state**. -/
structure State where
  id : String
  onEntry : Option (List Step) := none
  onExit : Option (List Step) := none
  transitions : Option (List Transition) := none

/-- An entry of the data of a chart. -/
structure Data where
  id : String
  type : String
  expr : Option String := none
  lowerBound : Option Amount := none
  upperBound : Option Amount := none
deriving DecidableEq

/-- The kinds of charts. -/
inductive ChartKind where
  | default
  | btRoot
deriving DecidableEq

/-- A **chart**. -/
structure Chart where
  name : String
  kind : Option ChartKind := none
  initial : String
  datamodel : Option (List Data) := none
  states : List State

/-- How the names of charts start that are roots whatever their kind. -/
def rootNameStart : String := "bt_root_fsm_"

/-- Whether a chart is a **root**: it may block events that it does not handle. -/
def Chart.isRoot (c : Chart) : Bool :=
  c.kind == some .btRoot || Text.startsWith c.name rootNameStart

end ChartNet
