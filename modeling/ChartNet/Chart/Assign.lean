import ChartNet.Automaton.Edge
import ChartNet.Automaton.Variable
import ChartNet.Source

/-!
# Assignments of charts

What is assigned to an array goes with its lengths. A whole array takes a literal or another array
variable, and its length variables are set after it. An element widens the lengths of the
dimensions that its indexes pass through, so that the element is in use.
-/

namespace ChartNet

/-- What the steps of a chart can see: the **types** of names and the event whose data they read. -/
structure Scope where
  types : TypeLookup
  event : Option String := none

/-- The assignments that store a **whole array** at an index, and its lengths at the next one. -/
def Scope.assignArray (scope : Scope) (target : String) (shape : ArrayShape) (source : Source)
    (index : Rank) : Result (List Assignment) :=
  let lengthOf (i : Nat) : Expr := .ident (lengthName target (i + 1))
  match source.meaning with
  | .literal _ _ => do
    let lengths ← (← source.fit shape false).lengths shape
    let value ← source.fit shape true
    return { ref := .ident target, value := .array value, index } ::
      lengths.mapIdx fun i el => { ref := lengthOf i, value := el.toExpr, index := index.next }
  | .plain e =>
    match e.withEvent scope.event with
    | .ident name =>
      let given := scope.types name
      let copy : List Assignment :=
        { ref := .ident target, value := .ident name, index } ::
          shape.sizes.mapIdx fun i _ =>
            { ref := lengthOf i, value := .ident (lengthName name (i + 1)), index := index.next }
      match given with
      | some (.array s) =>
        if s.sizes.length = shape.sizes.length then .ok copy
        else failType (.arrayMismatch name given target (.array shape))
      | _ => failType (.arrayMismatch name given target (.array shape))
    | _ => failType (.arraySource source.text target)

/-- The assignments that **widen** the lengths of the dimensions that an access passes through. -/
def AccessChain.widenLengths (c : AccessChain) (index : Rank) : List Assignment :=
  c.indexes.mapIdx fun i position =>
    let length := AccessChain.dimensionLength c.root (i + 1) c.indexes
    { ref := length
      value := .binary .max (.binary .add position (.int 1)) length
      index }

/-- The assignments that store a value in an **element** of an array. -/
def Scope.assignElement (scope : Scope) (location : String) (c : AccessChain) (shape : ArrayShape)
    (text : String) (index : Rank) : Result (List Assignment) :=
  let indexes := c.indexes.length
  let dimensions := shape.sizes.length
  if dimensions < indexes then failType (.tooManyIndexes location indexes dimensions)
  else if indexes < dimensions then failUnsupported (.wholeRow location)
  else do
    let value ← Source.parseFor scope.event text
    return { ref := c.toExpr, value, index } :: c.widenLengths index.next

/-- The assignments of the text of an expression to the text of a **target**, from an index on. -/
def Scope.assign (scope : Scope) (location text : String) (index : Rank) :
    Result (List Assignment) := do
  let target ← Source.parseFor scope.event location
  match target.chain? with
  | none => failType (.notAssignable location)
  | some c =>
    match c.indexes, scope.types c.root with
    | _, none => failModel (.undeclared c.root)
    | _ :: _, some (.array shape) => scope.assignElement location c shape text index
    | _ :: _, some type => failType (.notArray c.root type)
    | [], some (.array shape) => do scope.assignArray c.root shape (← Source.read text) index
    | [], some _ => do
      let value ← Source.parseFor scope.event text
      return [{ ref := target, value, index }]

end ChartNet
