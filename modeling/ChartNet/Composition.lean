import ChartNet.Assoc
import ChartNet.Error

/-!
# Compositions

The automata of a model run in parallel. A **composition** lists them as its elements, with the
vectors by which they synchronise: each vector says which automata take part, and by which of
their actions.
-/

namespace ChartNet

/-- A **synchronisation**: its result and its participants, each an automaton with its action. -/
structure Sync where
  result : String
  participants : List (String × String)
deriving DecidableEq

/-- A **composition**. -/
structure Composition where
  elements : List String := []
  syncs : List Sync := []
deriving DecidableEq

namespace Composition

/-- The composition with one more element, which must be new. -/
def addElement (c : Composition) (automaton : String) : Result Composition :=
  if automaton ∈ c.elements then failModel (.elementTwice automaton)
  else .ok { c with elements := c.elements ++ [automaton] }

/-- The composition of elements that do not synchronise yet. -/
def ofElements (elements : List String) : Result Composition :=
  elements.foldlM addElement {}

/-- The composition with one more synchronisation; it must have participants, and all must be
elements. -/
def addSync (c : Composition) (result : String) (participants : List (String × String)) :
    Result Composition :=
  let participants := Json.arrange (assocOfList participants)
  if participants.isEmpty then failModel (.noParticipants result)
  else
    match participants.find? (!c.elements.contains ·.1) with
    | some p => failModel (.notElement result p.1)
    | none => .ok { c with syncs := c.syncs ++ [{ result, participants }] }

/-- The actions of an automaton that synchronise, each once. -/
def syncedActions (c : Composition) (automaton : String) : List String :=
  (c.syncs.filterMap fun s => assocGet? s.participants automaton).eraseDups

/-- The **vector** of a synchronisation: an action, or nothing, for each element. -/
def vector (c : Composition) (s : Sync) : List (Option String) :=
  c.elements.map (assocGet? s.participants)

/-- The synchronisations by result; those of one result keep their order. -/
def sortedSyncs (c : Composition) : List Sync :=
  c.syncs.mergeSort fun a b => Text.unitLe a.result b.result

/-- The JSON form of a composition. -/
def toJson (c : Composition) : Json :=
  .obj [("elements", .arr (c.elements.map fun e => .obj [("automaton", .str e)])),
    ("syncs", .arr (c.sortedSyncs.map fun s =>
      .obj [("result", .str s.result),
        ("synchronise", .arr ((c.vector s).map fun a => (a.map Json.str).getD .null))]))]

/-! ### Compositions as they are written -/

/-- A synchronisation as it is **written**: by its vector. -/
structure SyncVector where
  result : String
  actions : List (Option String)
deriving DecidableEq

/-- A composition as it is written. -/
structure Listing where
  elements : List String
  syncs : List SyncVector
deriving DecidableEq

/-- The participants of a vector over some elements. They are collected in an object, which takes up
no entry for an element of the name `__proto__`. -/
def participantsOf (elements : List String) (actions : List (Option String)) :
    List (String × String) :=
  objectEntries ((elements.zip actions).filterMap fun (e, a) => a.map (e, ·))

/-- The composition with written synchronisations, counted from `i`. -/
def addVectors (c : Composition) (i : Nat) : List SyncVector → Result Composition
  | [] => .ok c
  | v :: vs => do
    if v.actions.length ≠ c.elements.length then
      failModel (.vectorWidth i v.result v.actions.length c.elements.length)
    let c ← c.addSync v.result (participantsOf c.elements v.actions)
    c.addVectors (i + 1) vs

/-- The composition of a **listing**. -/
def ofListing (l : Listing) : Result Composition := do
  (← ofElements l.elements).addVectors 0 l.syncs

end Composition

end ChartNet
