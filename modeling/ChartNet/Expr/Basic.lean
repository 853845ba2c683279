import ChartNet.Assoc
import ChartNet.Expr.Operator

/-!
# Expressions

An **expression** is a name, a literal, a uniform distribution, an array value or an operator
applied to its operands. An array value has one numeric kind for all its elements, so the kind
stands once, at the array.
-/

namespace ChartNet

/-- The two **kinds** of numbers. -/
inductive NumKind where
  | int
  | real
deriving DecidableEq

/-- The kind that holds numbers of both kinds: int only if both are. -/
def NumKind.join : NumKind → NumKind → NumKind
  | .int, .int => .int
  | _, _ => .real

/-- The name of a kind. -/
def NumKind.name : NumKind → String
  | .int => "int"
  | .real => "real"

/-- The **named constants**. The table of their names also answers to the members that it inherits:
such a member passes for a constant, although it has neither a symbol nor a value. -/
inductive NamedConstant where
  | e
  | pi
  | inherited (m : ObjectMember)
deriving DecidableEq

/-- The symbol of a constant; an inherited member goes by its name. -/
def NamedConstant.symbol : NamedConstant → String
  | .e => "e"
  | .pi => "π"
  | .inherited m => m.name

/-- The value of a constant; whatever is not `e` counts as `π`. -/
def NamedConstant.value : NamedConstant → Float
  | .e => 2.718281828459045
  | .pi | .inherited _ => 3.141592653589793

/-- A **literal** that is no array. -/
inductive Literal where
  | bool (b : Bool)
  | num (kind : NumKind) (x : Float)
  | constant (c : NamedConstant)
deriving DecidableEq

/-- An **element** of an array value: a number, or a list of elements one dimension down. -/
inductive Element where
  | num (x : Float)
  | list (items : List Element)

namespace Element

mutual

/-- Equality of elements is decidable. -/
def decEq : (a b : Element) → Decidable (a = b)
  | num x, num y => if h : x = y then isTrue (by rw [h]) else isFalse (by simpa using h)
  | list xs, list ys =>
    match decEqList xs ys with
    | isTrue h => isTrue (by rw [h])
    | isFalse h => isFalse (by simpa using h)
  | num _, list _ | list _, num _ => isFalse (by simp)

/-- Equality of lists of elements is decidable. -/
def decEqList : (a b : List Element) → Decidable (a = b)
  | [], [] => isTrue rfl
  | x :: xs, y :: ys =>
    match decEq x y, decEqList xs ys with
    | isTrue h, isTrue k => isTrue (by rw [h, k])
    | isFalse h, _ => isFalse (by simp [h])
    | _, isFalse k => isFalse (by simp [k])
  | [], _ :: _ | _ :: _, [] => isFalse (by simp)

end

instance : DecidableEq Element := decEq

end Element

/-- An **array value**: the kind of its numbers and its elements, nested once per dimension. -/
structure ArrayValue where
  base : NumKind
  elements : List Element
deriving DecidableEq

/-- An **expression**. -/
inductive Expr where
  | ident (name : String)
  | lit (value : Literal)
  | uniform (lower upper : Float)
  | array (value : ArrayValue)
  | unary (op : UnaryOp) (a : Expr)
  | binary (op : BinaryOp) (a b : Expr)
  | ternary (op : TernaryOp) (a b c : Expr)
  | quaternary (op : QuaternaryOp) (a b c d : Expr)
deriving DecidableEq

namespace Expr

/-! ### Building expressions -/

/-- An int literal. -/
def int (x : Float) : Expr := lit (.num .int x)

/-- A real literal. -/
def real (x : Float) : Expr := lit (.num .real x)

/-- An int literal that is a natural number. -/
def nat (n : Nat) : Expr := int (Float.ofNat n)

/-- A truth value. -/
def bool (b : Bool) : Expr := lit (.bool b)

/-- The element of an array at an index. -/
def access (a i : Expr) : Expr := binary .access a i

/-- The negation of a condition. -/
def not (a : Expr) : Expr := unary .not a

/-- The conjunction of two conditions. -/
def and (a b : Expr) : Expr := binary .and a b

/-- Equality of two values. -/
def eq (a b : Expr) : Expr := binary .eq a b

/-- A conditional. -/
def ite (test a b : Expr) : Expr := ternary .ite test a b

/-- The conjunction of a list of conditions, grouped to the left; `true` if there is none. -/
def conjunction : List Expr → Expr
  | [] => bool true
  | e :: es => es.foldl and e

/-! ### Walking expressions -/

/-- The opcode of an operator expression or array value. -/
def opcode? : Expr → Option Opcode
  | ident _ | lit _ | uniform _ _ => none
  | array _ => some .elements
  | unary op _ => some (.unary op)
  | binary op _ _ => some (.binary op)
  | ternary op _ _ _ => some (.ternary op)
  | quaternary op _ _ _ _ => some (.quaternary op)

/-- Whether the expression or an expression below it has a property. -/
def any (p : Expr → Bool) : Expr → Bool
  | ident n => p (ident n)
  | lit v => p (lit v)
  | uniform l u => p (uniform l u)
  | array v => p (array v)
  | unary op a => p (unary op a) || a.any p
  | binary op a b => p (binary op a b) || a.any p || b.any p
  | ternary op a b c => p (ternary op a b c) || a.any p || b.any p || c.any p
  | quaternary op a b c d =>
    p (quaternary op a b c d) || a.any p || b.any p || c.any p || d.any p

/-- Whether an expression is itself a macro. -/
def isMacro : Expr → Bool
  | unary op _ => op.isMacro
  | binary op _ _ => op.isMacro
  | ternary op _ _ _ => op.isMacro
  | quaternary _ _ _ _ _ => true
  | _ => false

/-- Whether an expression is itself a distribution. -/
def isUniform : Expr → Bool
  | uniform _ _ => true
  | _ => false

/-- Whether a macro occurs in an expression. -/
def hasMacro (e : Expr) : Bool := e.any isMacro

/-- Whether a distribution occurs in an expression. -/
def isRandom (e : Expr) : Bool := e.any isUniform

/-- The names that occur in an expression, in order and with repetitions. -/
def occurrences : Expr → List String
  | ident n => [n]
  | lit _ | uniform _ _ | array _ => []
  | unary _ a => a.occurrences
  | binary _ a b => a.occurrences ++ b.occurrences
  | ternary _ a b c => a.occurrences ++ b.occurrences ++ c.occurrences
  | quaternary _ a b c d => a.occurrences ++ b.occurrences ++ c.occurrences ++ d.occurrences

/-- The names that occur in an expression, each once, in the order of their first occurrence. -/
def names (e : Expr) : List String :=
  e.occurrences.eraseDups

/-- The expression with a function applied to every name. -/
def mapNames (f : String → String) : Expr → Expr
  | ident n => ident (f n)
  | lit v => lit v
  | uniform l u => uniform l u
  | array v => array v
  | unary op a => unary op (a.mapNames f)
  | binary op a b => binary op (a.mapNames f) (b.mapNames f)
  | ternary op a b c => ternary op (a.mapNames f) (b.mapNames f) (c.mapNames f)
  | quaternary op a b c d =>
    quaternary op (a.mapNames f) (b.mapNames f) (c.mapNames f) (d.mapNames f)

/-! ### The data of an event -/

/-- How a name starts that reads the data of the current event. -/
def eventDataStart : String := "_event.data."

/-- The variable of an event that a name for its data stands for; other names stay. -/
def eventVariable (event : String) (name : String) : String :=
  if eventDataStart.toList.isPrefixOf name.toList then
    event ++ "." ++ String.ofList (name.toList.drop eventDataStart.length)
  else name

/-- The expression with the data of the current event read from the variables of `event`; nothing
changes if there is no current event. -/
def withEvent (event : Option String) (e : Expr) : Expr :=
  match event with
  | some ev => e.mapNames (eventVariable ev)
  | none => e

end Expr

end ChartNet
