import ChartNet.Chart

/-!
# Reading charts

The schema of charts. Members that a chart does not have are dropped, so that reading a chart
that was written out gives the same chart again.
-/

namespace ChartNet

open Schema

/-- The text of an expression. -/
def sourceSchema : Schema String :=
  nonEmpty "expression must not be empty"

/-- A number, or the text of an expression. -/
def amountSchema : Schema Amount :=
  choice [Schema.map Amount.number number, Schema.map Amount.source sourceSchema]

/-- A value that is sent with an event. -/
def paramSchema : Schema Param :=
  object (Param.mk <$> field "name" nonEmpty <*> field "expr" sourceSchema)

/-- A step over the schema of the steps inside it. -/
def stepForm (inner : Schema Step) : Schema Step :=
  tagged "kind"
    [("assign", object
      (Step.assign <$> field "location" sourceSchema <*> field "expr" sourceSchema)),
    ("send", object
      (Step.send <$> field "event" nonEmpty <*> field "params" (optional (list paramSchema)))),
    ("if", object
      (Step.choose <$>
        field "branches"
          (list (object (Prod.mk <$> field "cond" sourceSchema <*> field "body" (list inner))) 1)
        <*> field "else" (optional (list inner))))]

/-- Steps nested at most `n` deep. -/
def stepSchema : Nat → Schema Step
  | 0 => stepForm fun path _ => refuse path "Invalid input"
  | n + 1 => stepForm (stepSchema n)

/-- A list of steps that may be absent. -/
def bodySchema (n : Nat) : Schema (Option (List Step)) :=
  optional (list (stepSchema n))

/-- One of several targets. -/
def targetSchema (n : Nat) : Schema Target :=
  object (Target.mk <$> field "target" nonEmpty <*> field "prob" (optional amountSchema)
    <*> field "body" (bodySchema n))

/-- The members of a transition before they are put together. -/
structure TransitionMembers where
  event : Option String
  cond : Option String
  target : Option String
  body : Option (List Step)
  targets : Option (List Target)

/-- The transition of some members. -/
def TransitionMembers.toTransition (m : TransitionMembers) : Transition where
  event := m.event
  cond := m.cond
  goal :=
    match m.targets with
    | some targets => .several targets
    | none => .single (m.target.getD "") m.body

/-- A transition: it has one target or several, and only one target has its body beside it. -/
def transitionSchema (n : Nat) : Schema Transition :=
  Schema.map TransitionMembers.toTransition <|
    refine "'body' belongs inside each entry of 'targets'"
      (fun m => !(m.targets.isSome && m.body.isSome)) <|
    refine "a transition needs exactly one of 'target' or 'targets'"
      (fun m => m.target.isNone != m.targets.isNone) <|
    object (TransitionMembers.mk <$> field "event" (optional nonEmpty)
      <*> field "cond" (optional sourceSchema)
      <*> field "target" (optional nonEmpty)
      <*> field "body" (bodySchema n)
      <*> field "targets" (optional (list (targetSchema n) 1)))

/-- An entry of the data of a chart. -/
def dataSchema : Schema Data :=
  object (Data.mk <$> field "id" nonEmpty <*> field "type" nonEmpty
    <*> field "expr" (optional sourceSchema)
    <*> field "lowerBound" (optional amountSchema)
    <*> field "upperBound" (optional amountSchema))

/-- A state. -/
def stateSchema (n : Nat) : Schema State :=
  object (State.mk <$> field "id" nonEmpty
    <*> field "onEntry" (bodySchema n)
    <*> field "onExit" (bodySchema n)
    <*> field "transitions" (optional (list (transitionSchema n))))

/-- A chart whose steps are nested at most `n` deep. -/
def chartSchema (n : Nat) : Schema Chart :=
  object (Chart.mk <$> field "name" nonEmpty
    <*> field "kind" (optional (oneOf [("default", .default), ("bt-root", .btRoot)]))
    <*> field "initial" nonEmpty
    <*> field "datamodel" (optional (list dataSchema))
    <*> field "states" (list (stateSchema n) 1))

/-- **Reads** a chart, or tells what is wrong with it. -/
def Chart.ofJson (j : Json) : Except (List Diagnostic) Chart :=
  ((chartSchema j.depth).read j).mapError fun issues => issues.map (·.diagnostic "chart")

/-- Reads steps, or tells what is wrong with them. -/
def Step.listOfJson (j : Json) : Except (List Issue) (List Step) :=
  (list (stepSchema j.depth)).read j

/-! ### Writing -/

/-- The JSON form of an amount. -/
def Amount.toJson : Amount → Json
  | .number x => .num x
  | .source s => .str s

/-- The JSON form of a value that is sent. -/
def Param.toJson (p : Param) : Json :=
  .obj [("name", .str p.name), ("expr", .str p.expr)]

mutual

/-- The JSON form of a **step**. -/
def Step.toJson : Step → Json
  | .assign location expr =>
    .obj [("kind", .str "assign"), ("location", .str location), ("expr", .str expr)]
  | .send event params =>
    .fields [("kind", some (.str "send")), ("event", some (.str event)),
      ("params", params.map fun ps => .arr (ps.map Param.toJson))]
  | .choose branches none =>
    .obj [("kind", .str "if"), ("branches", .arr (Step.branchesToJson branches))]
  | .choose branches (some steps) =>
    .obj [("kind", .str "if"), ("branches", .arr (Step.branchesToJson branches)),
      ("else", .arr (Step.listToJson steps))]

/-- The JSON forms of steps. -/
def Step.listToJson : List Step → List Json
  | [] => []
  | s :: ss => s.toJson :: Step.listToJson ss

/-- The JSON forms of the branches of a choice. -/
def Step.branchesToJson : List (String × List Step) → List Json
  | [] => []
  | (cond, body) :: bs =>
    .obj [("cond", .str cond), ("body", .arr (Step.listToJson body))] :: Step.branchesToJson bs

end

/-- The JSON form of steps that may be absent. -/
def bodyJson (body : Option (List Step)) : Option Json :=
  body.map fun ss => .arr (Step.listToJson ss)

/-- The JSON form of a target. -/
def Target.toJson (t : Target) : Json :=
  .fields [("target", some (.str t.target)), ("prob", t.prob.map Amount.toJson),
    ("body", bodyJson t.body)]

/-- The JSON form of a transition. -/
def Transition.toJson (t : Transition) : Json :=
  .fields <| [("event", t.event.map .str), ("cond", t.cond.map .str)] ++
    match t.goal with
    | .single target body => [("target", some (.str target)), ("body", bodyJson body)]
    | .several targets => [("targets", some (.arr (targets.map Target.toJson)))]

/-- The JSON form of a state. -/
def State.toJson (s : State) : Json :=
  .fields [("id", some (.str s.id)), ("onEntry", bodyJson s.onEntry), ("onExit", bodyJson s.onExit),
    ("transitions", s.transitions.map fun ts => .arr (ts.map Transition.toJson))]

/-- The JSON form of an entry of the data of a chart. -/
def Data.toJson (d : Data) : Json :=
  .fields [("id", some (.str d.id)), ("type", some (.str d.type)), ("expr", d.expr.map .str),
    ("lowerBound", d.lowerBound.map Amount.toJson), ("upperBound", d.upperBound.map Amount.toJson)]

/-- The name of a kind of charts. -/
def ChartKind.name : ChartKind → String
  | .default => "default"
  | .btRoot => "bt-root"

/-- The JSON form of a **chart**. -/
def Chart.toJson (c : Chart) : Json :=
  .fields [("name", some (.str c.name)), ("kind", c.kind.map fun k => .str k.name),
    ("initial", some (.str c.initial)),
    ("datamodel", c.datamodel.map fun ds => .arr (ds.map Data.toJson)),
    ("states", some (.arr (c.states.map State.toJson)))]

end ChartNet
