import ChartNet.Assoc
import ChartNet.Automaton.Variable
import ChartNet.Text.Pattern

/-!
# Events

An **event** carries a payload of typed fields from its senders to its receivers. The fields of a
declared event are fixed; those of any other event grow with what is sent, and a field that
receives ints and reals becomes real. In a model the payload lives in global variables, one per
field, with `<event>.valid` beside them.
-/

namespace ChartNet

open Text.Pattern in
/-- Events that automata synchronise on explicitly. -/
def synchedPatterns : List Text.Pattern :=
  [all [text "srv_", something, text "_",
      oneOf [text "response", text "request", text "req_client"], anything],
    all [text "action_", something, text "_goal_", something],
    all [text "action_", something, text "_result", anything],
    all [text "action_", something, text "_thread_", oneOf [text "start", text "free"]],
    all [text "bt_", something, text "_",
      oneOf [text "tick", text "halt", text "response", text "halt_response"]]]

open Text.Pattern in
/-- Interfaces whose receivers are dropped if nobody sends them. -/
def removablePatterns : List Text.Pattern :=
  [all [text "action_", anything, text "_feedback"],
    all [text "action_", anything, text "_goal_rejected"],
    all [text "bt_", something, text "_halt"]]

/-- Whether an event is **synchronised** on explicitly, so that nobody ignores it. -/
def isSynched (event : String) : Bool :=
  synchedPatterns.any (·.accepts event)

/-- Whether an event is an interface that may be dropped. -/
def isRemovableInterface (event : String) : Bool :=
  removablePatterns.any (·.accepts event)

/-- The action by which an event is sent. -/
def sendAction (event : String) : String := event ++ "_on_send"

/-- The action by which an event is received. -/
def receiveAction (event : String) : String := event ++ "_on_receive"

/-- An **event**: its fields, and the automata that send and receive it with their actions. -/
structure Event where
  name : String
  declared : Bool := false
  fields : List (String × DataType) := []
  senders : List (String × String) := []
  receivers : List (String × String) := []
deriving DecidableEq

namespace Event

/-- A declared event. -/
def declare (name : String) (fields : List (String × DataType)) : Event :=
  { name, declared := true, fields := fields.foldl (fun fs f => assocPut fs f.1 f.2) [] }

/-- The type of a field. -/
def fieldType? (e : Event) (field : String) : Option DataType :=
  assocGet? e.fields field

/-- The event after a value of a type was sent in a field. -/
def recordField (e : Event) (field : String) (type : DataType) : Result Event :=
  match e.fieldType? field with
  | none =>
    if e.declared then failModel (.noField e.name field (e.fields.map (·.1)))
    else .ok { e with fields := assocPut e.fields field type }
  | some known =>
    match known.unify type with
    | some merged =>
      if e.declared then
        if merged.base = known.base then .ok e
        else failType (.payloadMismatch field e.name known type)
      else .ok { e with fields := assocPut e.fields field merged }
    | none => failType (.payloadMismatch field e.name known type)

/-- The event after a payload was sent: fields before one that does not fit are recorded. -/
def recordPayload (e : Event) : List (String × DataType) → Result Unit × Event
  | [] => (.ok (), e)
  | (field, type) :: rest =>
    match e.recordField field type with
    | .ok e => e.recordPayload rest
    | .error err => (.error err, e)

/-- The event with one more sender. -/
def addSender (e : Event) (automaton action : String) : Event :=
  { e with senders := assocPut e.senders automaton action }

/-- The event with one more receiver. -/
def addReceiver (e : Event) (automaton action : String) : Event :=
  { e with receivers := assocPut e.receivers automaton action }

/-- Whether somebody sends the event. -/
def hasSenders (e : Event) : Bool := !e.senders.isEmpty

/-- Whether somebody receives the event. -/
def hasReceivers (e : Event) : Bool := !e.receivers.isEmpty

/-- Whether nobody sends the event and its interface may be dropped. -/
def isRemovable (e : Event) : Bool :=
  !e.hasSenders && isRemovableInterface e.name

/-- The **variables** of an event: whether it is valid, and one per field. -/
def vars (e : Event) : Result (List Variable) := do
  let valid ← Variable.make (e.name ++ ".valid") .bool (some (.bool false))
  let fields ← e.fields.mapM fun (field, type) => do
    let name := e.name ++ "." ++ field
    let v ← Variable.make name type
    match type with
    | .array shape => return v :: (← lengthVariables name shape)
    | _ => return [v]
  return valid :: fields.flatten

/-- Splits the name of a length variable into the name of its array and the dimension. -/
def splitLength? (name : String) : Option (String × Nat) :=
  match Text.after? "_len".toList.reverse name.toList.reverse with
  | none => none
  | some cs =>
    let digits := (cs.takeWhile Char.isDigit).reverse
    match Text.after? ".d".toList.reverse (cs.dropWhile Char.isDigit) with
    | none => none
    | some root =>
      if digits.isEmpty || root.isEmpty || root.any Text.endsLine then none
      else some (String.ofList root.reverse, Number.natOfDigits digits)

/-- The type of the part of an event's variables that a name after `<event>.` stands for. -/
def partType? (e : Event) (part : String) : Option DataType :=
  if part = "valid" then some .bool
  else
    match e.fieldType? part with
    | some t => some t
    | none =>
      match splitLength? part with
      | some (field, dimension) =>
        match e.fieldType? field with
        | some (.array shape) =>
          if 1 ≤ dimension ∧ dimension ≤ shape.sizes.length then some (shape.lengthType dimension)
          else none
        | _ => none
      | none => none

end Event

/-- The **events** of a model, in the order in which they came up. -/
structure Events where
  all : List Event := []
deriving DecidableEq

namespace Events

/-- The event of a name. -/
def get? (es : Events) (name : String) : Option Event :=
  es.all.find? (·.name == name)

/-- Whether there is an event of a name. -/
def contains (es : Events) (name : String) : Bool :=
  (es.get? name).isSome

/-- The events with the event of a name, which is added without fields if it is new. -/
def ensure (es : Events) (name : String) : Events :=
  if es.contains name then es else ⟨es.all ++ [{ name := name }]⟩

/-- The events with one of them changed. -/
def modify (es : Events) (name : String) (f : Event → Event) : Events :=
  ⟨es.all.map fun e => if e.name == name then f e else e⟩

/-- The events with one more declared event, whose name must be new. -/
def declare (es : Events) (name : String) (fields : List (String × DataType)) : Result Events :=
  if es.contains name then failModel (.eventTwice name)
  else .ok ⟨es.all ++ [Event.declare name fields]⟩

/-- The type of a variable of an event. The names of events may contain dots, so every event is
tried. -/
def variableType? (es : Events) (name : String) : Option DataType :=
  es.all.findSome? fun e =>
    (Text.after? (e.name ++ ".").toList name.toList).bind fun part =>
      e.partType? (String.ofList part)

/-- The events after a payload was sent with an event. -/
def recordPayload (es : Events) (name : String) (payload : List (String × DataType)) :
    Result Unit × Events :=
  let es := es.ensure name
  match es.get? name with
  | none => (.ok (), es)
  | some e =>
    let (r, e') := e.recordPayload payload
    (r, es.modify name fun _ => e')

/-- The events with one more sender of an event. -/
def addSender (es : Events) (name automaton action : String) : Events :=
  (es.ensure name).modify name (·.addSender automaton action)

/-- The events with one more receiver of an event. -/
def addReceiver (es : Events) (name automaton action : String) : Events :=
  (es.ensure name).modify name (·.addReceiver automaton action)

end Events

end ChartNet
