import ChartNet.Error

/-!
# Functions

The functions that expressions can call, with the operator that each stands for. A function takes
one argument per role of its operator; some arguments must be plain names, and a logarithm without
a base is the natural one. `Math.random` draws from the uniform distribution on `[0, 1]`.
-/

namespace ChartNet

/-- The expression of an operator applied to operands, if their number is right. -/
def Opcode.apply? : Opcode → List Expr → Option Expr
  | unary op, [a] => some (.unary op a)
  | binary op, [a, b] => some (.binary op a b)
  | ternary op, [a, b, c] => some (.ternary op a b c)
  | quaternary op, [a, b, c, d] => some (.quaternary op a b c d)
  | _, _ => none

/-- A **function**: its name, its operator, the roles that take a plain name, and the last
argument if it may be left out. -/
structure Function where
  name : String
  op : Opcode
  nameRoles : List String := []
  defaultLast : Option Expr := none

/-- The functions that can be called. -/
def functions : List Function :=
  [{ name := "Math.abs", op := .unary .abs },
    { name := "Math.floor", op := .unary .floor },
    { name := "Math.ceil", op := .unary .ceil },
    { name := "Math.sin", op := .unary .sin },
    { name := "Math.cos", op := .unary .cos },
    { name := "Math.pow", op := .binary .pow },
    { name := "Math.min", op := .binary .min },
    { name := "Math.max", op := .binary .max },
    { name := "Math.log", op := .binary .log, defaultLast := some (.lit (.constant .e)) },
    { name := "Math.round", op := .unary .round },
    { name := "Geometry.norm2d", op := .binary .norm2d },
    { name := "Geometry.dot2d", op := .quaternary .dot2d },
    { name := "Geometry.cross2d", op := .quaternary .cross2d },
    { name := "Geometry.intersect", op := .binary .intersect, nameRoles := ["robot", "barrier"] },
    { name := "Geometry.distance", op := .binary .distance, nameRoles := ["robot", "barrier"] },
    { name := "Geometry.distanceToPoint", op := .ternary .distanceToPoint, nameRoles := ["robot"] },
    { name := "Units.toCm", op := .unary .toCm },
    { name := "Units.toM", op := .unary .toM },
    { name := "Units.toDeg", op := .unary .toDeg },
    { name := "Units.toRad", op := .unary .toRad }]

/-- The name of the function that draws a random number. -/
def randomName : String := "Math.random"

/-- The names of the constants. -/
def constantNames : List (String × NamedConstant) :=
  [("Math.E", .e), ("Math.PI", .pi)]

/-- The constant that a name stands for; the names of inherited members stand for these. -/
def NamedConstant.ofName? (name : String) : Option NamedConstant :=
  (constantNames.find? (·.1 == name)).map (·.2) <|> (ObjectMember.ofName? name).map .inherited

/-- The name of a constant; whatever is not `e` is written as `π`. -/
def NamedConstant.name : NamedConstant → String
  | .e => "Math.E"
  | .pi | .inherited _ => "Math.PI"

/-- The function by which an operator is written. -/
def Opcode.functionName? (op : Opcode) : Option String :=
  (functions.find? (·.op == op)).map (·.name)

/-- A uniform distribution, whose bounds must be in order. -/
def Expr.mkUniform (lower upper : Float) : Result Expr :=
  if lower ≤ upper then .ok (.uniform lower upper) else failModel (.uniformBounds lower upper)

/-- Whether an expression is a plain name. -/
def Expr.isIdent : Expr → Bool
  | .ident _ => true
  | _ => false

/-- The **call** of a function with arguments. -/
def buildCall (callee : String) (args : List Expr) (place : Option Place) : Result Expr :=
  if callee = randomName then
    if args.isEmpty then Expr.mkUniform 0 1 else failType (.noArguments callee args.length) place
  else
    match functions.find? (·.name == callee) with
    | none => failUnsupported (.function callee) place
    | some f =>
      let roles := f.op.roles
      let accepted :=
        match f.defaultLast with
        | some _ => [roles.length - 1, roles.length]
        | none => [roles.length]
      if !accepted.contains args.length then
        failType (.argumentCount callee accepted args.length) place
      else
        let operands := if args.length = roles.length then args else args ++ f.defaultLast.toList
        match (roles.zip operands).find? fun p => f.nameRoles.contains p.1 && !p.2.isIdent with
        | some (role, _) => failType (.argumentNotName role callee) place
        | none =>
          match f.op.apply? operands with
          | some e => .ok e
          | none => failType (.argumentCount callee accepted args.length) place

end ChartNet
