import ChartNet.Chart.Schema
import ChartNet.Composition
import ChartNet.World

/-!
# Descriptors

A **descriptor** says what a model consists of: its charts, inline or by reference, its constants,
the events that are declared, the world of its robots, the properties to verify and, if it is
not to be made from the events, the composition. Settings that are left out have defaults.
-/

namespace ChartNet

/-- The value of a constant: a literal, or the text of an expression over earlier constants. -/
inductive ConstantSource where
  | number (x : Float)
  | truth (b : Bool)
  | source (text : String)
deriving DecidableEq

/-- The declaration of a **constant**. -/
structure ConstantDecl where
  name : String
  type : Scalar
  value : ConstantSource
deriving DecidableEq

/-- The declaration of an **event**: its fields with the names of their types. -/
structure EventDecl where
  name : String
  fields : List (String × String)
deriving DecidableEq

/-- A chart of a model: written in the descriptor, or a reference to another document. -/
inductive ChartEntry where
  | reference (name : String)
  | inline (chart : Chart)

/-- A **descriptor**. -/
structure Descriptor where
  name : String
  description : Option String := none
  capacity : Size
  randomOptions : Size
  charts : List ChartEntry
  constants : List ConstantDecl := []
  events : List EventDecl := []
  world : Option World := none
  properties : List Json := []
  composition : Option Composition.Listing := none

namespace Descriptor

open Schema

/-! ### Reading -/

/-- The capacity of arrays without a size, unless it is given. -/
def defaultCapacity : Size := .whole 100

/-- How many values stand for a distribution, unless it is given. -/
def defaultRandomOptions : Size := .whole 100

/-- The schema of the declaration of a constant. -/
def constantSchema : Schema ConstantDecl :=
  object (ConstantDecl.mk <$> field "name" nonEmpty
    <*> field "type" (oneOf [("bool", Scalar.bool), ("int", .int), ("real", .real)])
    <*> field "value" (choice [Schema.map ConstantSource.number number,
      Schema.map ConstantSource.truth boolean, Schema.map ConstantSource.source nonEmpty]))

/-- The schema of the declaration of an event. -/
def eventSchema : Schema EventDecl :=
  object (EventDecl.mk <$> field "name" nonEmpty
    <*> field "fields" (withDefault [] (record nonEmpty)))

/-- The schema of a composition as it is written. -/
def compositionSchema : Schema Composition.Listing :=
  let vector := object (Composition.SyncVector.mk <$> field "result" nonEmpty
    <*> field "synchronise" (list (nullable nonEmpty)))
  object (Composition.Listing.mk
    <$> field "elements" (list (object (field "automaton" nonEmpty)) 1)
    <*> field "syncs" (list vector))

/-- The schema of a chart, whose steps are nested at most `n` deep, or of a reference to one. -/
def chartEntrySchema (n : Nat) : Schema ChartEntry :=
  choice [Schema.map ChartEntry.reference nonEmpty, Schema.map ChartEntry.inline (chartSchema n)]

/-- The schema of descriptors whose charts have steps nested at most `n` deep. -/
def schema (n : Nat) : Schema Descriptor :=
  object (Descriptor.mk <$> field "name" nonEmpty
    <*> field "description" (optional text)
    <*> field "maxArraySize"
      (withDefault defaultCapacity (Schema.map Size.ofFloat (number [whole, positive])))
    <*> field "randomOptions"
      (withDefault defaultRandomOptions (Schema.map Size.ofFloat (number [whole, atLeast 1])))
    <*> field "charts" (list (chartEntrySchema n) 1)
    <*> field "constants" (withDefault [] (list constantSchema))
    <*> field "events" (withDefault [] (list eventSchema))
    <*> field "environment" (optional World.schema)
    <*> field "properties" (withDefault [] (list anything))
    <*> field "composition" (optional compositionSchema))

/-- **Reads** a descriptor, or tells what is wrong with it. -/
def ofJson (j : Json) : Except (List Diagnostic) Descriptor :=
  ((schema j.depth).read j).mapError fun issues => issues.map (·.diagnostic "model descriptor")

/-! ### Writing -/

/-- The JSON form of the value of a constant. -/
def constantSourceJson : ConstantSource → Json
  | .number x => .num x
  | .truth b => .bool b
  | .source s => .str s

/-- The JSON form of a chart of a model. -/
def chartEntryJson : ChartEntry → Json
  | .reference r => .str r
  | .inline c => c.toJson

/-- The JSON form of a composition as it is written. -/
def listingJson (l : Composition.Listing) : Json :=
  .obj [("elements", .arr (l.elements.map fun e => .obj [("automaton", .str e)])),
    ("syncs", .arr (l.syncs.map fun v =>
      .obj [("result", .str v.result),
        ("synchronise", .arr (v.actions.map fun a => (a.map Json.str).getD .null))]))]

/-- The **JSON form** of a descriptor, with its defaults filled in. -/
def toJson (d : Descriptor) : Json :=
  .fields [("name", some (.str d.name)), ("description", d.description.map .str),
    ("maxArraySize", some (.num d.capacity.toFloat)),
    ("randomOptions", some (.num d.randomOptions.toFloat)),
    ("charts", some (.arr (d.charts.map chartEntryJson))),
    ("constants", some (.arr (d.constants.map fun c =>
      .obj [("name", .str c.name), ("type", .str c.type.name),
        ("value", constantSourceJson c.value)]))),
    ("events", some (.arr (d.events.map fun e =>
      .obj [("name", .str e.name), ("fields", .obj (e.fields.map fun f => (f.1, .str f.2)))]))),
    ("environment", d.world.map (·.toJson)),
    ("properties", some (.arr d.properties)),
    ("composition", d.composition.map listingJson)]

/-- The references to charts. -/
def references (d : Descriptor) : List String :=
  d.charts.filterMap fun
    | .reference r => some r
    | .inline _ => none

end Descriptor

end ChartNet
