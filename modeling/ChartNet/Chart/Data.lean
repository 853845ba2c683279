import ChartNet.Automaton
import ChartNet.Chart
import ChartNet.Source

/-!
# Data of charts

An entry of the data of a chart declares a variable by the name of its type: `int32`,
`float64[3][]`, `string`. A dimension without a size, and a string, takes the capacity of the model.
A string is an int array of its bytes. An array variable comes with its length variables, which
start from the lengths of the initial value.
-/

namespace ChartNet

/-! ### Names of types -/

/-- What the name of a type without dimensions stands for. -/
inductive TypeName where
  | bool
  | number (kind : NumKind)
  | string
deriving DecidableEq

/-- The **names** of types. -/
def typeNames : List (String × TypeName) :=
  [("bool", .bool), ("int8", .number .int), ("int16", .number .int), ("int32", .number .int),
    ("int64", .number .int), ("uint8", .number .int), ("uint16", .number .int),
    ("uint32", .number .int), ("uint64", .number .int), ("float32", .number .real),
    ("float64", .number .real), ("string", .string)]

/-- The digits between each pair of brackets, `inside` being those of a pair that is open. -/
def bracketDigits : (inside : Option (List Char)) → List Char → Option (List (List Char))
  | none, [] => some []
  | none, '[' :: cs => bracketDigits (some []) cs
  | some ds, ']' :: cs => (bracketDigits none cs).map (ds :: ·)
  | some ds, c :: cs => if c.isDigit then bracketDigits (some (ds ++ [c])) cs else none
  | _, _ => none

/-- The size that digits give; without digits it is the capacity. -/
def sizeOfDigits (capacity : Size) (ds : List Char) : Size :=
  if ds.isEmpty then capacity else .ofFloat (Number.ofNumeral ds)

/-- A type as it was **declared**: strings are int arrays that hold text. -/
structure DeclaredType where
  type : DataType
  string : Bool := false
deriving DecidableEq

/-- The type that a **text** names; blanks in it do not count. -/
def DeclaredType.ofText (text : String) (capacity : Size) : Result DeclaredType :=
  let cs := text.toList.filter (!Text.isBlank ·)
  let name := String.ofList (cs.takeWhile (· != '['))
  match typeNames.lookup name, bracketDigits none (cs.dropWhile (· != '[')) with
  | some .string, some [] => .ok { type := .array ⟨.int, [capacity]⟩, string := true }
  | some .string, some _ => failType (.stringArray text)
  | some .bool, some [] => .ok { type := .bool }
  | some .bool, some _ => failType (.boolArray text)
  | some (.number kind), some [] => .ok { type := .scalar kind.toScalar }
  | some (.number kind), some sizes =>
    .ok { type := .array ⟨kind, sizes.map (sizeOfDigits capacity)⟩ }
  | _, _ => failType (.unknownType text)

/-! ### Variables of an entry -/

namespace Data

/-- The expression of a bound; one of an int variable that is a number must be whole. -/
def boundExpr (kind : NumKind) : Amount → Result Expr
  | .source text => Source.parse text
  | .number x =>
    if kind = .int ∧ !Number.isWhole x then failType (.boundNotWhole x)
    else .ok (.lit (.num kind x))

/-- Whether an entry has bounds. -/
def hasBounds (d : Data) : Bool :=
  d.lowerBound.isSome || d.upperBound.isSome

/-- The type of a variable with the bounds of its entry. -/
def boundedType (d : Data) (type : DataType) : Result DataType :=
  let bounds (kind : NumKind) : Result DataType := do
    return .bounded kind (← d.lowerBound.mapM (boundExpr kind))
      (← d.upperBound.mapM (boundExpr kind))
  if !d.hasBounds then .ok type
  else
    match type with
    | .scalar .int => bounds .int
    | .scalar .real => bounds .real
    | _ => failType (.boundsNotAllowed type)

/-- Whether a variable of type `expected` can start from a value of type `actual`. -/
def canStartFrom (expected actual : DataType) : Bool :=
  !actual.isArray && (actual.base == expected.base ||
    (expected.base == .real && actual.base == .int))

/-- The variable of an entry with a scalar type. -/
def scalarVariable (d : Data) (type : DataType) (types : TypeLookup) : Result Variable :=
  match d.expr with
  | none => Variable.make d.id type
  | some text => do
    let init ← Source.parse text
    match ← init.infer types with
    | some actual =>
      if canStartFrom type actual then Variable.make d.id type init
      else failType (.initialValue text d.id actual type)
    | none => Variable.make d.id type init

/-- The length variables of an array variable that starts from another one. -/
def copiedLengths (name source : String) (shape : ArrayShape) : Result (List Variable) := do
  let vars ← lengthVariables name shape
  return vars.mapIdx fun i v => { v with init := .ident (lengthName source (i + 1)) }

/-- The variables of an entry with an array type: the array, then its lengths. -/
def arrayVariables (d : Data) (shape : ArrayShape) (types : TypeLookup) :
    Result (List Variable) := do
  let type := DataType.array shape
  match d.expr with
  | none => return (← Variable.make d.id type) :: (← lengthVariables d.id shape)
  | some text =>
    let source ← Source.read text
    match source.meaning with
    | .literal _ _ =>
      let init ← source.fit shape true
      let lengths ← (← source.fit shape false).lengths shape
      return (← Variable.make d.id type (some (.array init))) ::
        (← lengthVariables d.id shape lengths)
    | .plain (.ident name) =>
      match types name with
      | some (.array given) =>
        if given.sizes.length ≠ shape.sizes.length then
          failType (.initialArray d.id shape.sizes.length)
        let lengths ← copiedLengths d.id name shape
        return (← Variable.make d.id type (some source.expr)) :: lengths
      | _ => failType (.initialArray d.id shape.sizes.length)
    | .plain e => return (← Variable.make d.id type (some e)) :: (← lengthVariables d.id shape)

/-- The **variables** of an entry. -/
def vars (d : Data) (capacity : Size) (types : TypeLookup) : Result (List Variable) := do
  match (← DeclaredType.ofText d.type capacity).type with
  | .array shape =>
    if d.hasBounds then failType (.boundsNotAllowed (.array shape))
    d.arrayVariables shape types
  | type => return [← d.scalarVariable (← d.boundedType type) types]

end Data

/-- The automaton with the variables of entries; later entries see the variables of earlier ones
before those that `types` knows. -/
def Automaton.declareData (capacity : Size) (types : TypeLookup) (a : Automaton) :
    List Data → Result Automaton
  | [] => .ok a
  | d :: ds => do
    let vars ← d.vars capacity fun n => ((a.getVariable? n).map (·.type)) <|> types n
    let a ← vars.foldlM addVariable a
    a.declareData capacity types ds

end ChartNet
