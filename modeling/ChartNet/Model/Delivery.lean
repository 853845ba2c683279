import ChartNet.Event
import ChartNet.Model

/-!
# Delivery of events

In a model an event is **delivered** through an automaton of its own, a buffer with one place: a
send fills it, and the receive that follows empties it. Each sender synchronises with the buffer
by itself, all receivers together. Events that nobody sends or receives are left out; an event
that is received and never sent is an error, unless its interface may be dropped.
-/

namespace ChartNet

/-- The location of a buffer that is empty. -/
def emptyBuffer : String := "waiting"

/-- The location of a buffer that is full. -/
def fullBuffer : String := "received"

/-- An edge of a buffer. -/
private def bufferEdge (source target action : String) : Edge :=
  { location := source, action := some action, destinations := [{ location := some target }] }

/-- The **buffer** of an event; without receivers it is always empty. -/
def Event.buffer (e : Event) : Automaton :=
  let a := ({ name := e.name } : Automaton).setInitial emptyBuffer
  if e.hasReceivers then
    a.addEdges [bufferEdge emptyBuffer fullBuffer (sendAction e.name),
      bufferEdge fullBuffer emptyBuffer (receiveAction e.name)]
  else a.addEdges [bufferEdge emptyBuffer emptyBuffer (sendAction e.name)]

namespace Model

/-- The **live** events, which become part of the model. The receivers of those that are dropped
lose their edges. -/
def liveEvents : List Event → ModelM (List Event)
  | [] => return []
  | e :: es =>
    if e.hasSenders then do return e :: (← liveEvents es)
    else if e.hasReceivers then
      if e.isRemovable then do
        modify (·.removeAction (receiveAction e.name))
        liveEvents es
      else .ofResult (failModel (.neverSent e.name (e.receivers.map (·.1))))
    else liveEvents es

/-- Declares the variables of events. -/
def addEventVariables : List Event → ModelM Unit
  | [] => return
  | e :: es => do
    addVariables (← .ofResult e.vars)
    addEventVariables es

/-- Declares the variables of all live events, and gives these events. -/
def declareEvents (events : Events) : ModelM (List Event) := do
  let live ← liveEvents events.all
  addEventVariables live
  return live

end Model

/-- The composition with the synchronisations of an event. -/
def Composition.addEvent (c : Composition) (e : Event) : Result Composition := do
  let send := sendAction e.name
  let receive := receiveAction e.name
  let c ← c.addElement e.name
  let c ← e.senders.foldlM
    (fun c sender => c.addSync send [(e.name, send), (sender.1, send)]) c
  if e.hasReceivers then
    c.addSync receive ((e.name, receive) :: e.receivers.map fun r => (r.1, receive))
  else return c

namespace Model

/-- Adds the buffers of events to the model and their synchronisations to a composition. -/
def addBuffers (c : Composition) : List Event → ModelM Composition
  | [] => return c
  | e :: es => do
    .change (addAutomaton e.buffer)
    let c ← .ofResult (c.addEvent e)
    addBuffers c es

/-- Adds the buffers of events, and gives the **composition** of all automata. -/
def composeEvents (events : List Event) : ModelM Composition := do
  let m ← get
  let c ← .ofResult (Composition.ofElements (m.automata.map (·.name)))
  addBuffers c events

end Model

end ChartNet
