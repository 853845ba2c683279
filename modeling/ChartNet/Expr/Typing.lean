import ChartNet.Expr.Array

/-!
# Types of expressions

`Expr.infer` gives the **type** of an expression from the types of the names in it; an expression
over names without a type may have none. `DataType.unify` gives the type of a variable that
receives values of two types: int and real widen to real.
-/

namespace ChartNet

/-- The types of names. -/
abbrev TypeLookup := String → Option DataType

/-- The type of a literal. -/
def Literal.type : Literal → DataType
  | .bool _ => .bool
  | .num kind _ => .scalar kind.toScalar
  | .constant _ => .real

/-- The type of an arithmetic result: int only if both operands are int. -/
def Scalar.join : Scalar → Scalar → Scalar
  | .int, .int => .int
  | _, _ => .real

/-- The type that an operator always has, whatever its operands. -/
def UnaryOp.type? : UnaryOp → Option DataType
  | .not => some .bool
  | .floor | .ceil | .round | .toCm | .toDeg => some .int
  | .sin | .cos | .toM | .toRad => some .real
  | .abs => none

/-- The type that an operator always has, whatever its operands. -/
def BinaryOp.type? : BinaryOp → Option DataType
  | .and | .or | .implies | .eq | .ne | .lt | .le | .gt | .ge => some .bool
  | .div | .pow | .log | .norm2d | .intersect | .distance => some .real
  | .add | .sub | .mul | .mod | .min | .max | .access => none

/-- The type of a conditional whose branches have the given types. -/
def DataType.branch : Option DataType → Option DataType → Option DataType
  | some a, some b =>
    if a.isArray || b.isArray then some a
    else if a.base = b.base then some (.scalar a.base)
    else if a.base = .bool ∨ b.base = .bool then none
    else some .real
  | a, b => a <|> b

/-- The type of an element of an array. -/
def ArrayShape.element (shape : ArrayShape) : DataType :=
  match shape.sizes.tail with
  | [] => .scalar shape.base.toScalar
  | rest => .array ⟨shape.base, rest⟩

/-- The type of an array that is built element by element. -/
def DataType.comprehension : DataType → DataType
  | .array shape => .array ⟨shape.base, .whole 0 :: shape.sizes⟩
  | t => .array ⟨if t.base = .real then .real else .int, [.whole 0]⟩

/-- The **type** of an expression. -/
def Expr.infer (types : TypeLookup) : Expr → Result (Option DataType)
  | ident n => .ok (types n)
  | lit v => .ok (some v.type)
  | uniform _ _ => .ok (some .real)
  | array v => .ok (some (.array v.shape))
  | unary op a =>
    match op.type? with
    | some t => .ok (some t)
    | none => do
      let t ← a.infer types
      return t.map fun t => .scalar t.base
  | binary op a b =>
    match op.type? with
    | some t => .ok (some t)
    | none =>
      if op = .access then do
        match ← a.infer types with
        | some (.array shape) => return some shape.element
        | some t => failType (.notIndexable t)
        | none => return none
      else do
        let s ← a.infer types
        let t ← b.infer types
        return do return .scalar ((← s).base.join (← t).base)
  | ternary op _ b c =>
    match op with
    | .ite => do return DataType.branch (← b.infer types) (← c.infer types)
    | .comprehension => do return (← c.infer types).map DataType.comprehension
    | .distanceToPoint => .ok (some .real)
  | quaternary _ _ _ _ _ => .ok (some .real)

/-- The type of a variable that receives values of both types, if there is one. -/
def DataType.unify : DataType → DataType → Option DataType
  | .array a, .array b =>
    if a.sizes.length ≠ b.sizes.length then none
    else if a.base = b.base then some (.array a)
    else some (.array ⟨.real, a.sizes⟩)
  | .array _, _ => none
  | _, .array _ => none
  | a, b =>
    if a.base = b.base then some a
    else if a.base = .bool ∨ b.base = .bool then none
    else some .real

end ChartNet
