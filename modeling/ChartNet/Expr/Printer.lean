import ChartNet.Expr.Call

/-!
# Expression text

`Expr.print` writes an expression as text that reads back as the same expression. Parentheses
stand only where the grammar needs them: each form has a **level**, and an operand of a looser
level than its place allows is put into parentheses. Implications, array comprehensions and
distributions other than the one on `[0, 1]` cannot be written.
-/

namespace ChartNet

/-- The infix form of an operator with its level; looser operators have a lower level. -/
def BinaryOp.infixForm? : BinaryOp → Option (Nat × String)
  | .or => some (2, "||")
  | .and => some (3, "&&")
  | .eq => some (4, "==")
  | .ne => some (4, "!=")
  | .lt => some (5, "<")
  | .le => some (5, "<=")
  | .gt => some (5, ">")
  | .ge => some (5, ">=")
  | .add => some (6, "+")
  | .sub => some (6, "-")
  | .mul => some (7, "*")
  | .div => some (7, "/")
  | .mod => some (7, "%")
  | _ => none

/-- The level of conditionals. -/
def conditionalLevel : Nat := 1

/-- The level of unary operators. -/
def unaryLevel : Nat := 8

/-- The level of names, literals, calls and accesses, which need no parentheses anywhere. -/
def atomLevel : Nat := 9

/-- The **level** of an expression; a negative number is written with a unary operator. -/
def Expr.level : Expr → Nat
  | lit (.num _ x) => if x < 0 then unaryLevel else atomLevel
  | unary .not _ => unaryLevel
  | binary op _ _ => (op.infixForm?.map (·.1)).getD atomLevel
  | ternary .ite _ _ _ => conditionalLevel
  | _ => atomLevel

/-- The text of a number: one of kind real has a point, an exponent or is not finite. -/
def NumKind.print (kind : NumKind) (x : Float) : String :=
  let text := Number.text x
  match kind with
  | .int => text
  | .real =>
    if !x.isFinite || text.toList.any (fun c => c == '.' || c == 'e') then text else text ++ ".0"

mutual

/-- The text of an element of an array value. -/
def Element.print (base : NumKind) : Element → String
  | .num x => base.print x
  | .list items => "[" ++ ", ".intercalate (Element.printAll base items) ++ "]"

/-- The texts of elements. -/
def Element.printAll (base : NumKind) : List Element → List String
  | [] => []
  | el :: els => el.print base :: Element.printAll base els

end

/-- The text of a literal. -/
def Literal.print : Literal → String
  | .bool b => if b then "true" else "false"
  | .num kind x => kind.print x
  | .constant c => c.name

/-- A text, in parentheses if they are needed. -/
def parenthesized (needed : Bool) (text : String) : String :=
  if needed then "(" ++ text ++ ")" else text

/-- A call of the function that stands for an operator. -/
def Opcode.printCall (op : Opcode) (args : List String) : Result String :=
  match op.functionName? with
  | some f => .ok (f ++ "(" ++ ", ".intercalate args ++ ")")
  | none => failUnsupported (.operatorText op.code)

/-- The **text** of an expression. -/
def Expr.print : Expr → Result String
  | ident n => .ok n
  | lit v => .ok v.print
  | uniform l u =>
    if l == 0 && u == 1 then .ok (randomName ++ "()") else failUnsupported (.uniformText l u)
  | array v => .ok (Element.print v.base (.list v.elements))
  | unary .not a => do
    return "!" ++ parenthesized (a.level < unaryLevel) (← a.print)
  | unary op a => do
    (Opcode.unary op).printCall [← a.print]
  | binary op a b =>
    match op.infixForm? with
    | some (level, symbol) => do
      let left := parenthesized (a.level < level) (← a.print)
      let right := parenthesized (b.level ≤ level) (← b.print)
      return left ++ " " ++ symbol ++ " " ++ right
    | none =>
      match op with
      | .access => do
        let base := parenthesized (a.level < atomLevel) (← a.print)
        return base ++ "[" ++ (← b.print) ++ "]"
      | .implies => failUnsupported (.operatorText op.code)
      | _ => do
        let left ← a.print
        let right ← b.print
        (Opcode.binary op).printCall [left, right]
  | ternary .ite a b c => do
    let test := parenthesized (a.level ≤ conditionalLevel) (← a.print)
    let whenTrue ← b.print
    let whenFalse ← c.print
    return test ++ " ? " ++ whenTrue ++ " : " ++ whenFalse
  | ternary .comprehension _ _ _ => failUnsupported (.operatorText TernaryOp.comprehension.code)
  | ternary op a b c => do
    let x ← a.print
    let y ← b.print
    let z ← c.print
    (Opcode.ternary op).printCall [x, y, z]
  | quaternary op a b c d => do
    let x₁ ← a.print
    let y₁ ← b.print
    let x₂ ← c.print
    let y₂ ← d.print
    (Opcode.quaternary op).printCall [x₁, y₁, x₂, y₂]

end ChartNet
