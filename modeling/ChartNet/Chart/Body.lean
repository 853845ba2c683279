import ChartNet.Build
import ChartNet.Chart.Assign
import ChartNet.Chart.Guard
import ChartNet.Chart.Schema
import ChartNet.Digest
import ChartNet.Event

/-!
# Bodies

The steps of a transition become the **destination** of its edge and, if they send events or
choose between branches, further edges through new locations. Assignments gather on the edge
under way. A send ends that edge in a new location, from which the edge of the send goes on. A
choice ends it before the branches; each branch is an edge of its own, guarded so that only the
first branch whose condition is true can be taken, and all meet in a location after the choice.
-/

namespace ChartNet

/-! ### Registering events -/

/-- A computation that may fail and that **registers** events, which stay also if it fails. -/
abbrev EventM (α : Type) := Build Events α

/-- Registers that a value of a type is sent in a field of an event, and gives the type that the
field has then. -/
def EventM.recordField (event field : String) (type : DataType) : EventM DataType :=
  ExceptT.mk fun events =>
    let (r, events) := events.recordPayload event [(field, type)]
    (r.map fun _ => ((events.get? event).bind (·.fieldType? field)).getD type, events)

/-! ### Sending -/

/-- The surroundings of a body: the automaton that it belongs to, the types of its variables and
of those of the model, the **capacity** of arrays without a size, and the event whose data the
body reads. -/
structure BodyScope where
  automaton : String
  vars : TypeLookup
  capacity : Size
  event : Option String := none

/-- What the steps of a body can see once some events are registered. -/
def BodyScope.scope (s : BodyScope) (events : Events) : Scope where
  types n := s.vars n <|> events.variableType? n
  event := s.event

/-- The type of a value that is sent; arrays take the capacity in every dimension. -/
def BodyScope.payloadType (s : BodyScope) (events : Events) (source : Source) : Result DataType :=
  match source.meaning with
  | .literal form value =>
    let dimensions := if form = .string then 1 else value.dimensions
    .ok (.array ⟨value.base, List.replicate dimensions s.capacity⟩)
  | .plain e => do
    match ← (e.withEvent s.event).infer (s.scope events).types with
    | some (.array shape) => return .array ⟨shape.base, shape.sizes.map fun _ => s.capacity⟩
    | some type => return .scalar type.base
    | none => failType (.payloadUnknown source.text)

/-- The assignments of one value that is sent with an event; they happen at the same time. -/
def BodyScope.sendParam (s : BodyScope) (event : String) (p : Param) :
    EventM (List Assignment) := do
  let source ← .ofResult (Source.read p.expr)
  let given ← .ofResult (s.payloadType (← get) source)
  let target := event ++ "." ++ p.name
  match ← EventM.recordField event p.name given with
  | .array shape =>
    let assignments ← .ofResult ((s.scope (← get)).assignArray target shape source .zero)
    return assignments.map fun a => { a with index := .zero }
  | _ =>
    let value ← .ofResult (Source.parseFor s.event p.expr)
    return [{ ref := .ident target, value }]

/-- The assignments of the values that are sent with an event. -/
def BodyScope.sendParams (s : BodyScope) (event : String) : List Param →
    EventM (List Assignment)
  | [] => return []
  | p :: ps => return (← s.sendParam event p) ++ (← s.sendParams event ps)

/-- The assignments of a **send**: its values, and that the event is valid. -/
def BodyScope.send (s : BodyScope) (event : String) (params : List Param) :
    EventM (List Assignment) := do
  modify (·.ensure event)
  let assignments ← s.sendParams event params
  modify (·.addSender event s.automaton (sendAction event))
  return assignments ++ [{ ref := .ident (event ++ ".valid"), value := .bool true }]

/-! ### Steps -/

/-- The locations between which a body runs, and the digest that sets its new locations and
actions apart from those of other bodies. -/
structure BodyPath where
  source : String
  target : String
  digest : String

/-- The new location at a step. -/
def BodyPath.location (p : BodyPath) (i : Nat) : String :=
  p.source ++ "-" ++ p.digest ++ "-" ++ Number.natText i

/-- A compiled **body**: the destination of the edge that it starts on, and the edges and
locations that its steps need. -/
structure Body where
  head : Destination
  edges : List Edge := []
  locations : List String := []

/-- The edges and locations of a part of an automaton. -/
structure Fragment where
  edges : List Edge := []
  locations : List String := []

/-- Two parts of an automaton together. -/
def Fragment.append (f g : Fragment) : Fragment where
  edges := f.edges ++ g.edges
  locations := f.locations ++ g.locations

/-- The body that starts on an edge of its own. -/
def Body.startingWith (location action : String) (guard : Option Expr) (b : Body) : Fragment where
  edges := { location, action := some action, guard, destinations := [b.head] } :: b.edges
  locations := b.locations

/-- The body without further steps: it goes to the end of the path. -/
def Body.finish (path : BodyPath) (probability : Expr) (assignments : List Assignment) : Body where
  head := { location := some path.target, probability, assignments }

/-- The locations before and after a choice, and how the digests of its branches begin. -/
structure Fork where
  before : String
  after : String
  stem : String

/-- The choice at a step. -/
def BodyPath.fork (p : BodyPath) (i : Nat) (branches : List (String × List Step))
    (otherwise : Option (List Step)) : Fork where
  before := p.location i ++ "_before_if"
  after := p.location i ++ "_after_if"
  stem := p.digest ++ "-" ++ ChartNet.digest [(Step.choose branches otherwise).toJson]

/-- The path of a branch. -/
def Fork.path (f : Fork) (i : Nat) : BodyPath where
  source := f.before
  target := f.after
  digest := f.stem ++ "-" ++ Number.natText i

/-- The action of an edge of its own along a path. -/
def BodyPath.action (p : BodyPath) : String :=
  p.source ++ "-" ++ p.target ++ "-parent-" ++ p.digest

/-- The action of the edge that goes on after a choice. -/
def BodyPath.resumeAction (p : BodyPath) : String :=
  p.source ++ "-" ++ p.target ++ "-" ++ p.digest

/-- The edges of a **branch** after branches with the conditions `previous`. -/
def Fork.branch (f : Fork) (previous : List Expr) (condition : Option Expr) (b : Body) : Fragment :=
  let path := f.path previous.length
  b.startingWith path.source path.action (some (guardAfter previous condition))

mutual

/-- The body of **steps**, counted from `i`, after `assignments` on the edge under way, which has
the given probability. -/
def BodyScope.steps (s : BodyScope) (path : BodyPath) (probability : Expr)
    (assignments : List Assignment) (i : Nat) : List Step → EventM Body
  | [] => return .finish path probability assignments
  | .assign location expr :: rest => do
    let scope := s.scope (← get)
    let added ← .ofResult (scope.assign location expr (nextIndex assignments))
    s.steps path probability (assignments ++ added) (i + 1) rest
  | .send event params :: rest => do
    let here := path.location i
    let sent ← s.send event (params.getD [])
    let next :=
      (← s.steps path (.real 1) sent (i + 1) rest).startingWith here (sendAction event) none
    return { head := { location := some here, probability, assignments }
             edges := next.edges
             locations := here :: next.locations }
  | .choose branches otherwise :: rest => do
    let fork := path.fork i branches otherwise
    let (conditions, taken) ← s.branches fork [] branches
    let last ← s.otherwise (fork.path conditions.length) otherwise
    let taken := taken.append (fork.branch conditions none last)
    let next :=
      (← s.steps path (.real 1) [] (i + 1) rest).startingWith fork.after path.resumeAction none
    return { head := { location := some fork.before, probability, assignments }
             edges := taken.edges ++ next.edges
             locations := taken.locations ++ fork.before :: fork.after :: next.locations }

/-- The conditions of all **branches** of a choice and the edges of those that come after branches
with the conditions `previous`. -/
def BodyScope.branches (s : BodyScope) (fork : Fork) (previous : List Expr) :
    List (String × List Step) → EventM (List Expr × Fragment)
  | [] => return (previous, {})
  | (text, steps) :: rest => do
    let condition ← .ofResult (Source.parseFor s.event text)
    let body ← s.steps (fork.path previous.length) (.real 1) [] 0 steps
    let taken := fork.branch previous (some condition) body
    let (conditions, others) ← s.branches fork (previous ++ [condition]) rest
    return (conditions, taken.append others)

/-- The body of what is done if no condition of a choice is true; it may be nothing. -/
def BodyScope.otherwise (s : BodyScope) (path : BodyPath) : Option (List Step) → EventM Body
  | none => return .finish path (.real 1) []
  | some steps => s.steps path (.real 1) [] 0 steps

end

/-- The **body** of steps along a path, on an edge with the given probability. -/
def BodyScope.compile (s : BodyScope) (path : BodyPath) (probability : Expr) (steps : List Step) :
    EventM Body :=
  s.steps path probability [] 0 steps

/-- The edges of steps that start on an edge of their own. -/
def BodyScope.fragment (s : BodyScope) (path : BodyPath) (guard : Option Expr)
    (action : Option String) (steps : List Step) : EventM Fragment := do
  let body ← s.compile path (.real 1) steps
  return body.startingWith path.source (action.getD path.action) guard

end ChartNet
