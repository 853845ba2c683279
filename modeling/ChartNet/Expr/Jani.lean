import ChartNet.Expr.Call
import ChartNet.Schema

/-!
# Expressions as JSON

In a model an expression is a JSON value: a name is a string, numbers and truth values are
themselves, and an operator is an object with its opcode and its operands by role. Reading
normalises other spellings of opcodes. It goes in two steps: a lenient schema fixes the kinds of
all values, then the operands are read by role.
-/

namespace ChartNet

/-! ### Writing -/

mutual

/-- The JSON form of an element of an array value. -/
def Element.toJson : Element → Json
  | .num x => .num x
  | .list items => .obj [("op", .str "av"), ("elements", .arr (Element.listToJson items))]

/-- The JSON forms of elements. -/
def Element.listToJson : List Element → List Json
  | [] => []
  | el :: els => el.toJson :: Element.listToJson els

end

/-- The JSON form of a constant. Inherited members have none of their own: functions are left out of
an object, and the only other member is an object without members that JSON shows. -/
def NamedConstant.toJson : NamedConstant → Json
  | .inherited .proto => .obj [("constant", .obj [])]
  | .inherited _ => .obj []
  | c => .obj [("constant", .str c.symbol)]

/-- The JSON form of a literal. -/
def Literal.toJson : Literal → Json
  | .bool b => .bool b
  | .num _ x => .num x
  | .constant c => c.toJson

/-- The **JSON form** of an expression. -/
def Expr.toJson : Expr → Json
  | ident n => .str n
  | lit v => v.toJson
  | uniform l u => .obj [("distribution", .str "Uniform"), ("args", .arr [.num l, .num u])]
  | array v => .obj [("op", .str "av"), ("elements", .arr (Element.listToJson v.elements))]
  | unary op a => .obj [("op", .str op.code), ("exp", a.toJson)]
  | binary op a b =>
    .obj [("op", .str op.code), (op.roles.1, a.toJson), (op.roles.2, b.toJson)]
  | ternary op a b c =>
    .obj [("op", .str op.code), (op.roles.1, a.toJson), (op.roles.2.1, b.toJson),
      (op.roles.2.2, c.toJson)]
  | quaternary op a b c d =>
    .obj [("op", .str op.code), ("x1", a.toJson), ("y1", b.toJson), ("x2", c.toJson),
      ("y2", d.toJson)]

/-! ### Reading -/

/-- The schema of the JSON form of an expression, over the schema of its operands; it reads the
JSON value itself. -/
def exprForm (operands : Schema Json) : Schema Json := fun path v =>
  (Schema.choice
    [Schema.map (fun _ => ()) Schema.text,
      Schema.map (fun _ => ()) Schema.number,
      Schema.map (fun _ => ()) Schema.boolean,
      Schema.strictObject (Schema.field "constant" (Schema.oneOf [("e", ()), ("π", ())])),
      Schema.strictObject
        ((fun _ _ => ()) <$> Schema.field "distribution" (Schema.exactly "Uniform")
          <*> Schema.field "args" (Schema.pair Schema.number Schema.number)),
      Schema.map (fun _ => ()) (Schema.openObject (Schema.field "op" Schema.text) operands),
      Schema.map (fun _ => ()) (Schema.list operands)] path v).map fun _ => v.getD .null

/-- The schema of expressions nested at most `n` deep. -/
def exprSchema : Nat → Schema Json
  | 0 => exprForm fun path _ => Schema.refuse path "Invalid input"
  | n + 1 => exprForm (exprSchema n)

/-- A number as an expression: int if it is whole. -/
def Expr.ofNumber (x : Float) : Expr :=
  if Number.isWhole x then .int x else .real x

mutual

/-- Reads an element of an array value, with the kind of its numbers. -/
def Element.ofJson (path : String) (j : Json) : Result (NumKind × Element) :=
  match j with
  | .num x => .ok (if Number.isWhole x then .int else .real, .num x)
  | .arr items => (Element.listOfJson path 0 items).map fun r => (r.1, .list r.2)
  | .obj members =>
    match h : Json.lookup "op" members, he : Json.lookup "elements" members with
    | some (.str op), some (.arr items) =>
      have : sizeOf items < sizeOf members := by
        have := Json.sizeOf_lt_of_lookup he
        simp only [Json.arr.sizeOf_spec, Json.obj.sizeOf_spec] at this
        omega
      if op = "av" then (Element.listOfJson path 0 items).map fun r => (r.1, .list r.2)
      else failModel (.elementForm path)
    | _, _ => failModel (.elementForm path)
  | _ => failModel (.elementForm path)
termination_by (sizeOf j, 0)

/-- Reads elements from an index on; the kind of all their numbers is real if one is. -/
def Element.listOfJson (path : String) (i : Nat) (js : List Json) :
    Result (NumKind × List Element) :=
  match js with
  | [] => .ok (.int, [])
  | j :: js => do
    let (k, el) ← Element.ofJson (path ++ "[" ++ Number.natText i ++ "]") j
    let (l, els) ← Element.listOfJson path (i + 1) js
    return (k.join l, el :: els)
termination_by (sizeOf js, 1)

end

/-- The operand of a role, which must be there. -/
def operandAt (op path : String) (members : List (String × Json)) (role : String)
    (read : (v : Json) → sizeOf v < sizeOf (Json.obj members) → Result Expr) : Result Expr :=
  match h : Json.lookup role members with
  | some v => read v (Json.sizeOf_lt_of_lookup h)
  | none => failModel (.missingOperand op path role)

/-- Refuses operands that the opcode does not have. -/
def noOtherOperands (op path : String) (members : List (String × Json)) (roles : List String) :
    Result Unit :=
  match (members.map (·.1)).filter fun k => k != "op" && !roles.contains k with
  | [] => .ok ()
  | extra => failModel (.extraOperands op path extra)

/-- Reads an expression at a path from a JSON value that has the form of one. -/
def Expr.ofOperand (path : String) (j : Json) : Result Expr :=
  match j with
  | .str n => .ok (.ident n)
  | .bool b => .ok (.bool b)
  | .num x => .ok (Expr.ofNumber x)
  | .arr _ => failModel (.unexpectedArray path)
  | .null => failModel (.invalidExpression path "Invalid input")
  | .obj members =>
    match Json.lookup "op" members with
    | some (.str op) =>
      match Opcode.ofCode? op with
      | none => .error { fault := .unknownOperator op }
      | some .elements => do
        let value ←
          match Json.lookup "elements" members with
          | none => failModel (.missingOperand op path "elements")
          | some (.arr items) => Element.listOfJson (path ++ ".elements") 0 items
          | some _ => failModel (.elementsForm path)
        noOtherOperands op path members ["elements"]
        return .array ⟨value.1, value.2⟩
      | some (.unary o) => do
        let a ← operandAt op path members "exp" fun v _ => Expr.ofOperand (path ++ ".exp") v
        noOtherOperands op path members ["exp"]
        return .unary o a
      | some (.binary o) => do
        let (r₁, r₂) := o.roles
        let a ← operandAt op path members r₁ fun v _ => Expr.ofOperand (path ++ "." ++ r₁) v
        let b ← operandAt op path members r₂ fun v _ => Expr.ofOperand (path ++ "." ++ r₂) v
        noOtherOperands op path members [r₁, r₂]
        return .binary o a b
      | some (.ternary o) => do
        let (r₁, r₂, r₃) := o.roles
        let a ← operandAt op path members r₁ fun v _ => Expr.ofOperand (path ++ "." ++ r₁) v
        let b ← operandAt op path members r₂ fun v _ => Expr.ofOperand (path ++ "." ++ r₂) v
        let c ← operandAt op path members r₃ fun v _ => Expr.ofOperand (path ++ "." ++ r₃) v
        noOtherOperands op path members [r₁, r₂, r₃]
        return .ternary o a b c
      | some (.quaternary o) => do
        let a ← operandAt op path members "x1" fun v _ => Expr.ofOperand (path ++ ".x1") v
        let b ← operandAt op path members "y1" fun v _ => Expr.ofOperand (path ++ ".y1") v
        let c ← operandAt op path members "x2" fun v _ => Expr.ofOperand (path ++ ".x2") v
        let d ← operandAt op path members "y2" fun v _ => Expr.ofOperand (path ++ ".y2") v
        noOtherOperands op path members ["x1", "y1", "x2", "y2"]
        return .quaternary o a b c d
    | _ =>
      match Json.lookup "constant" members, Json.lookup "args" members with
      | some (.str c), _ => .ok (.lit (.constant (if c = "e" then .e else .pi)))
      | _, some (.arr [.num l, .num u]) => Expr.mkUniform l u
      | _, _ => failModel (.invalidExpression path "Invalid input")
termination_by sizeOf j
decreasing_by
  all_goals
    simp only [Json.obj.sizeOf_spec] at *
    omega

/-- **Reads** an expression from its JSON form. -/
def Expr.ofJson (j : Json) (path : String := "<expression>") : Result Expr :=
  match (exprSchema j.depth).read j with
  | .ok _ => Expr.ofOperand path j
  | .error [] => failModel (.invalidExpression path "unrecognised value")
  | .error (i :: _) =>
    failModel (.invalidExpression (if i.path.isEmpty then path else path ++ "." ++ i.pathText)
      i.message)

end ChartNet
