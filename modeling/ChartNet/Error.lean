import ChartNet.Diagnostic
import ChartNet.Expr.Type

/-!
# Compile errors

Everything that can be wrong with an input is a **fault**, sorted by what it concerns: text that
is no expression, types, operators, constructs without a counterpart in a model, constants and
settings, and the structure of the model. `Fault.message` and `Fault.hint` are the only places
that put faults into words. A **compile error** is a fault with the place in the expression text
and the part of the chart in which it arose.
-/

namespace ChartNet

/-! ### Faults -/

/-- What is wrong with the **type** of a value or target. -/
inductive TypeFault where
  | stringOperand
  | arrayOperand
  | twoLiterals
  | comparedLiteral
  | notValue (name : String)
  | elementNotNumber
  | noArguments (callee : String) (given : Nat)
  | argumentCount (callee : String) (accepted : List Nat) (given : Nat)
  | argumentNotName (role callee : String)
  | literalTooDeep
  | literalTooLong (length : Nat) (size : Size)
  | literalTooShallow
  | realInIntArray (x : Float)
  | notArrayLiteral (source : String)
  | stringTarget (source : String)
  | stringPlace (source : String)
  | notIndexable (type : DataType)
  | operandNotName (role op : String)
  | unknownType (text : String)
  | stringArray (text : String)
  | boolArray (text : String)
  | boundNotWhole (x : Float)
  | boundsNotAllowed (type : DataType)
  | initialArray (name : String) (dimensions : Nat)
  | initialValue (source name : String) (actual expected : DataType)
  | arraySource (source target : String)
  | arrayMismatch (source : String) (sourceType : Option DataType) (target : String)
      (targetType : DataType)
  | tooManyIndexes (source : String) (indexes dimensions : Nat)
  | notArray (name : String) (type : DataType)
  | notAssignable (source : String)
  | payloadUnknown (source : String)
  | payloadMismatch (field event : String) (known given : DataType)
deriving DecidableEq

/-- What has no counterpart in a model or in expression text. -/
inductive UnsupportedFault where
  | lengthTarget
  | member (name : String)
  | indexing
  | callee
  | function (name : String)
  | uniformText (lower upper : Float)
  | operatorText (op : String)
  | wholeRow (source : String)
deriving DecidableEq

/-- What is wrong with a **constant** or a setting. -/
inductive ConfigFault where
  | notNumber (op : String) (value : Bool)
  | notBool (op : String) (value : Float)
  | notConstant (name : String)
  | selfReference (name : String)
  | randomConstant
  | notConstantOp (op : String)
  | noBoundaries
  | boundaryCount (x : Float)
  | unknownBarrier (name : String)
  | constantType (name : String) (type : Scalar) (value : String)
  | chartNotLoaded (reference : String)
deriving DecidableEq

/-- What is wrong with the **structure** of a model. -/
inductive ModelFault where
  | uniformBounds (lower upper : Float)
  | unexpectedArray (path : String)
  | elementForm (path : String)
  | missingOperand (op path role : String)
  | elementsForm (path : String)
  | extraOperands (op path : String) (roles : List String)
  | invalidExpression (path message : String)
  | assignmentTarget
  | noDestination (location : String) (action : Option String)
  | noInitial (automaton : String)
  | variableTwice (name automaton : String)
  | arraySize (name : String)
  | undeclared (name : String)
  | noField (event field : String) (declared : List String)
  | eventTwice (name : String)
  | probabilityNotConstant (source message : String) (hint : Option String)
  | probabilityNotNumber (source : String)
  | probabilityNotPositive (target : String) (p : Float)
  | probabilitySum (total : Float)
  | stateTwice (name : String)
  | noState (name chart : String)
  | unconditionalTwice (state : String) (event : Option String)
  | eventsNeverFire (state : String)
  | globalTwice (name : String)
  | automatonTwice (name : String)
  | compositionElements (missing unknown : List String)
  | noComposition (model : String)
  | propertyTwice (name : String)
  | propertyForm (path message : String)
  | elementTwice (automaton : String)
  | noParticipants (result : String)
  | notElement (result automaton : String)
  | vectorWidth (position : Nat) (result : String) (width elements : Nat)
  | randomOptions (n : Size)
  | randomInitial (name : String) (automaton : Option String) (text : String)
  | neverSent (event : String) (receivers : List String)
deriving DecidableEq

/-- A **fault** of an input. -/
inductive Fault where
  | malformed (source : String) (diagnostics : List Diagnostic)
  | type (f : TypeFault)
  | unknownOperator (op : String)
  | unsupported (f : UnsupportedFault)
  | configuration (f : ConfigFault)
  | model (f : ModelFault)
deriving DecidableEq

/-! ### Messages and hints -/

/-- A text between single quotes. -/
def quoted (s : String) : String := "'" ++ s ++ "'"

/-- The words for a fault of types. -/
def TypeFault.message : TypeFault → String
  | stringOperand =>
    "String literals are only allowed as assigned values or compared with == and !="
  | arrayOperand =>
    "Array literals are only allowed as assigned values, array elements or compared with == and !="
  | twoLiterals => "Cannot compare two array literals"
  | comparedLiteral =>
    "Array and string literals can only be compared with a variable or array element"
  | notValue name => quoted name ++ " is not a value; use true, false or a number"
  | elementNotNumber => "Array literal elements must be numbers or nested array literals"
  | noArguments callee given => callee ++ " takes no arguments, got " ++ Number.natText given
  | argumentCount callee accepted given =>
    callee ++ " expects " ++ " or ".intercalate (accepted.map Number.natText) ++
      " argument(s), got " ++ Number.natText given
  | argumentNotName role callee =>
    "Argument " ++ quoted role ++ " of " ++ callee ++ " must be a plain name"
  | literalTooDeep => "Array literal has more dimensions than its target"
  | literalTooLong length size =>
    "Array literal has " ++ Number.natText length ++ " elements but the target holds at most " ++
      size.text
  | literalTooShallow => "Array literal has fewer dimensions than its target"
  | realInIntArray x => "Real value " ++ Number.text x ++ " cannot be stored in an int array"
  | notArrayLiteral source => quoted source ++ " is not an array literal"
  | stringTarget source =>
    "String " ++ quoted source ++ " can only be stored in a one-dimensional int array"
  | stringPlace source =>
    "String " ++ quoted source ++ " is only allowed where an int array is expected"
  | notIndexable type => "Cannot index a value of type " ++ type.describe
  | operandNotName role op =>
    "Operand " ++ quoted role ++ " of " ++ quoted op ++ " must be a plain name"
  | unknownType text => "Unknown data type " ++ quoted text
  | stringArray text => "Arrays of strings are not supported: " ++ quoted text
  | boolArray text => "Arrays of bool are not supported: " ++ quoted text
  | boundNotWhole x => "Bound " ++ Number.text x ++ " of an int variable must be an integer"
  | boundsNotAllowed type =>
    "Bounds are only allowed on int and real variables, not on " ++ type.describe
  | initialArray name dimensions =>
    quoted name ++ " can only be initialised from an array with " ++ Number.natText dimensions ++
      " dimension(s)"
  | initialValue source name actual expected =>
    "Initial value " ++ quoted source ++ " of " ++ quoted name ++ " is " ++ actual.describe ++
      ", expected " ++ expected.describe
  | arraySource source target =>
    "Cannot assign " ++ quoted source ++ " to the array " ++ quoted target
  | arrayMismatch source sourceType target targetType =>
    "Cannot assign " ++ quoted source ++ " (" ++ (sourceType.map (·.describe)).getD "unknown" ++
      ") to " ++ quoted target ++ " (" ++ targetType.describe ++ ")"
  | tooManyIndexes source indexes dimensions =>
    quoted source ++ " indexes " ++ Number.natText indexes ++ " dimension(s) of a " ++
      Number.natText dimensions ++ "-dimensional array"
  | notArray name type => quoted name ++ " is " ++ type.describe ++ ", not an array"
  | notAssignable source => "Cannot assign to " ++ quoted source
  | payloadUnknown source => "Cannot determine the type of " ++ quoted source
  | payloadMismatch field event known given =>
    "Field " ++ quoted field ++ " of event " ++ quoted event ++ " is " ++ known.describe ++
      " but a sender provides " ++ given.describe

/-- Advice on a fault of types. -/
def TypeFault.hint : TypeFault → Option String
  | unknownType _ =>
    "Use bool, int8..int64, uint8..uint64, float32, float64 or string, " ++
      "optionally followed by [N] or []."
  | arraySource _ _ =>
    "Arrays can be assigned an array literal, a string or another array variable."
  | notAssignable _ => "The target must be a variable or an array element."
  | payloadUnknown _ => "Declare the event and its fields in the model descriptor."
  | _ => none

/-- The words for what has no counterpart. -/
def UnsupportedFault.message : UnsupportedFault → String
  | lengthTarget => "'.length' is only supported on variables and array element accesses"
  | member name => "Member access '." ++ name ++ "' is only supported on names"
  | indexing => "Indexing is only supported on variables and array elements"
  | callee => "Only named functions can be called"
  | function name => "Unsupported function call " ++ quoted name
  | uniformText lower upper =>
    "Uniform(" ++ Number.text lower ++ ", " ++ Number.text upper ++ ") has no expression syntax"
  | operatorText op => "Operator " ++ quoted op ++ " has no expression syntax"
  | wholeRow source =>
    "Assigning a whole row (" ++ quoted source ++ ") is not supported; assign its elements"

/-- Advice on what has no counterpart. -/
def UnsupportedFault.hint : UnsupportedFault → Option String
  | function _ => "Only Math.*, Geometry.* and Units.* functions can be called in expressions."
  | _ => none

/-- The words for a fault of constants and settings. -/
def ConfigFault.message : ConfigFault → String
  | notNumber op value =>
    "Operator " ++ quoted op ++ " expects a number, got " ++ (if value then "true" else "false")
  | notBool op value => "Operator " ++ quoted op ++ " expects a boolean, got " ++ Number.text value
  | notConstant name => quoted name ++ " is not a constant"
  | selfReference name => "Constant " ++ quoted name ++ " is defined in terms of itself"
  | randomConstant => "Random values are not compile-time constants"
  | notConstantOp op => "Operator " ++ quoted op ++ " cannot be evaluated at compile time"
  | noBoundaries => "Constant 'boundaries.count' is required by the geometry macros"
  | boundaryCount x =>
    "Constant 'boundaries.count' must be an integer greater than 1, got " ++ Number.text x
  | unknownBarrier name => "Unknown barrier " ++ quoted name
  | constantType name type value =>
    "Constant " ++ quoted name ++ " is " ++ type.name ++ " but its value is " ++ value
  | chartNotLoaded reference => "Chart file " ++ quoted reference ++ " was not loaded"

/-- Advice on a fault of constants and settings. -/
def ConfigFault.hint : ConfigFault → Option String
  | noBoundaries => "Declare the environment boundaries in the model descriptor."
  | unknownBarrier _ => "Use 'all', 'boundaries' or 'obstacles'."
  | chartNotLoaded _ => "Pass the loaded charts alongside the descriptor, or inline them."
  | _ => none

/-- The words for a fault of the model's structure. -/
def ModelFault.message : ModelFault → String
  | uniformBounds lower upper =>
    "Uniform distribution bounds must satisfy lower <= upper, got [" ++ Number.text lower ++ ", " ++
      Number.text upper ++ "]"
  | unexpectedArray path =>
    "Unexpected array at " ++ path ++ "; arrays are only allowed as 'elements' of 'av'"
  | elementForm path => "Array element at " ++ path ++ " must be a number or a nested array"
  | missingOperand op path role =>
    "Operator " ++ quoted op ++ " at " ++ path ++ " is missing operand " ++ quoted role
  | elementsForm path => "Operator 'av' at " ++ path ++ " needs an 'elements' list"
  | extraOperands op path roles =>
    "Operator " ++ quoted op ++ " at " ++ path ++ " has unexpected operand(s): " ++
      ", ".intercalate roles
  | invalidExpression path message => "Invalid expression at " ++ path ++ ": " ++ message
  | assignmentTarget => "Assignment target must be a variable or an array element"
  | noDestination location action =>
    "Edge from " ++ quoted location ++
      (match action with
        | some a => if a.isEmpty then "" else " (" ++ a ++ ")"
        | none => "") ++
      " has a destination without a target location"
  | noInitial automaton => "Automaton " ++ quoted automaton ++ " has no initial location"
  | variableTwice name automaton =>
    "Variable " ++ quoted name ++ " is declared twice in automaton " ++ quoted automaton
  | arraySize name => "Array variable " ++ quoted name ++
    " needs a positive size in every dimension"
  | undeclared name => "Assignment to undeclared variable " ++ quoted name
  | noField event field _ => "Event " ++ quoted event ++ " has no field " ++ quoted field
  | eventTwice name => "Event " ++ quoted name ++ " is declared twice"
  | probabilityNotConstant source message _ =>
    "Probability " ++ quoted source ++ " is not a compile-time constant: " ++ message
  | probabilityNotNumber source => "Probability " ++ quoted source ++ " is not a number"
  | probabilityNotPositive target p =>
    "Probability of target " ++ quoted target ++ " must be greater than 0, got " ++ Number.text p
  | probabilitySum total =>
    "Target probabilities sum to " ++ Number.text total ++ ", expected 1"
  | stateTwice name => "State " ++ quoted name ++ " is declared twice"
  | noState name chart => "State " ++ quoted name ++ " not found in chart " ++ quoted chart
  | unconditionalTwice state none =>
    "State " ++ quoted state ++ " already has an unconditional event-less transition"
  | unconditionalTwice state (some event) =>
    "Event " ++ quoted event ++ " in state " ++ quoted state ++
      " already has an unconditional transition"
  | eventsNeverFire state =>
    "State " ++ quoted state ++
      " can always leave without an event, so its event transitions never fire"
  | globalTwice name => "Global " ++ quoted name ++ " is declared twice"
  | automatonTwice name => "Automaton " ++ quoted name ++ " is defined twice"
  | compositionElements missing unknown =>
    let part (label : String) (names : List String) : List String :=
      if names.isEmpty then [] else [label ++ ": " ++ ", ".intercalate names]
    "The composition must list each automaton once (" ++
      "; ".intercalate (part "missing" missing ++ part "unknown" unknown) ++ ")"
  | noComposition model => "Model " ++ quoted model ++ " has no composition"
  | propertyTwice name => "Property " ++ quoted name ++ " is defined twice"
  | propertyForm path message => "Unsupported property at " ++ path ++ ": " ++ message
  | elementTwice automaton =>
    "Automaton " ++ quoted automaton ++ " appears twice in the composition"
  | noParticipants result => "Sync " ++ quoted result ++ " has no participants"
  | notElement result automaton =>
    "Sync " ++ quoted result ++ " refers to " ++ quoted automaton ++
      ", which is not an element of the composition"
  | vectorWidth position result width elements =>
    "Sync #" ++ Number.natText position ++ " (" ++ quoted result ++ ") lists " ++
      Number.natText width ++ " actions for " ++ Number.natText elements ++ " elements"
  | randomOptions n => "The number of random options must be a positive integer, got " ++ n.text
  | randomInitial name automaton text =>
    "Variable " ++ quoted name ++
      (match automaton with
        | some a => " of automaton " ++ quoted a
        | none => "") ++
      " starts from a random value (" ++ text ++ "), which is not supported"
  | neverSent event receivers =>
    "Event " ++ quoted event ++ " is received by " ++ ", ".intercalate receivers ++
      " but never sent"

/-- Advice on a fault of the model's structure. -/
def ModelFault.hint : ModelFault → Option String
  | noField _ _ declared =>
    let names := ", ".intercalate declared
    some ("Declared fields: " ++ if names.isEmpty then "none" else names)
  | probabilityNotConstant _ _ hint => hint
  | probabilitySum _ => "Leave the probability of the last target out to give it the remainder."
  | eventsNeverFire _ =>
    "Give the event-less transition a condition, or move the event transitions to another state."
  | propertyForm _ _ =>
    "Properties are filters over 'Pmin' or 'Pmax' of an F, G, U or W path formula, " ++
      "from the initial states."
  | randomInitial _ _ _ => "Draw the value on the first transition instead."
  | neverSent _ _ => "Send it from some chart, or remove the transitions waiting for it."
  | _ => none

namespace Fault

/-- The words for a fault. -/
def message : Fault → String
  | malformed source diagnostics =>
    "Invalid expression " ++ quoted source ++ ": " ++
      ((diagnostics.head?.map (·.message)).getD "malformed expression")
  | type f => f.message
  | unknownOperator op => "Unknown operator " ++ quoted op
  | unsupported f => f.message
  | configuration f => f.message
  | model f => f.message

/-- Advice on a fault. -/
def hint : Fault → Option String
  | malformed _ diagnostics => diagnostics.head?.bind (·.hint)
  | type f => f.hint
  | unknownOperator _ => none
  | unsupported f => f.hint
  | configuration f => f.hint
  | model f => f.hint

/-- The code of a fault. -/
def code : Fault → String
  | malformed _ diagnostics => (diagnostics.head?.bind (·.code)).getD "EX-SYNTAX"
  | type _ => "EX-TYPE"
  | unknownOperator _ => "MO-UNKNOWN-OP"
  | unsupported _ => "MO-UNSUPPORTED"
  | configuration _ => "MO-CONFIG"
  | model _ => "MO-MODEL"

end Fault

/-! ### Errors -/

/-- A place in expression text: where a token starts and how wide it is. -/
structure Place where
  line : Nat
  column : Nat
  length : Nat
deriving DecidableEq

/-- The **part of a chart** in which an error arose, as far as it is known. -/
structure Context where
  automaton : Option String := none
  state : Option String := none
  transition : Option String := none
deriving DecidableEq

/-- A context, completed by an outer one where it says nothing. -/
def Context.within (inner outer : Context) : Context where
  automaton := inner.automaton <|> outer.automaton
  state := inner.state <|> outer.state
  transition := inner.transition <|> outer.transition

/-- The names of a context, outermost first; empty names are left out. -/
def Context.path (c : Context) : List String :=
  [c.automaton, c.state, c.transition].filterMap fun n => n.filter (!·.isEmpty)

/-- A **compile error**. -/
structure CompileError where
  fault : Fault
  place : Option Place := none
  context : Context := {}
deriving DecidableEq

namespace CompileError

/-- The words for an error. -/
def message (e : CompileError) : String := e.fault.message

/-- The words for an error after the part of the chart that it concerns. -/
def describe (e : CompileError) : String :=
  let path := e.context.path
  if path.isEmpty then e.message else "/".intercalate path ++ ": " ++ e.message

/-- The error with an outer context. -/
def within (outer : Context) (e : CompileError) : CompileError :=
  { e with context := e.context.within outer }

/-- The error as a **diagnostic**: text that is no expression is reported where its first
diagnostic is, other faults at their place or at the start. -/
def toDiagnostic (e : CompileError) : Diagnostic :=
  let (line, column, length) : Float × Float × Option Float :=
    match e.fault with
    | .malformed _ (d :: _) => (d.line, d.column, d.length)
    | _ =>
      match e.place with
      | some p => (Float.ofNat p.line, Float.ofNat p.column, some (Float.ofNat p.length))
      | none => (1, 1, none)
  { line, column, message := e.describe, code := some e.fault.code
    hint := e.fault.hint.filter (!·.isEmpty)
    length := length.filter (· != 0) }

end CompileError

/-- The result of a step that can fail. -/
abbrev Result (α : Type) := Except CompileError α

/-- Fails with a fault of types. -/
def failType {α : Type} (f : TypeFault) (place : Option Place := none) : Result α :=
  .error { fault := .type f, place }

/-- Fails with what has no counterpart. -/
def failUnsupported {α : Type} (f : UnsupportedFault) (place : Option Place := none) : Result α :=
  .error { fault := .unsupported f, place }

/-- Fails with a fault of constants or settings. -/
def failConfig {α : Type} (f : ConfigFault) : Result α :=
  .error { fault := .configuration f }

/-- Fails with a fault of the model's structure. -/
def failModel {α : Type} (f : ModelFault) : Result α :=
  .error { fault := .model f }

/-- A result whose error names the part of the chart that it concerns. -/
def Result.within {α : Type} (outer : Context) (r : Result α) : Result α :=
  r.mapError (·.within outer)

end ChartNet
