import ChartNet.Phrase
import ChartNet.Expr.Array
import ChartNet.Expr.Call
import ChartNet.Number.Reading

/-!
# The meaning of phrases

A phrase means an expression, or it is as a whole a **literal array**: a list of numbers, or a
string, which stands for its bytes. Literal arrays can be assigned, stand inside list literals and
be compared with a variable or array element by `==` and `!=`, which compares all lengths and
elements; anywhere else they are an error.

Names are resolved at the end of a chain of members, indexes and calls: `Math.PI` is a constant,
and a few words that look like values are refused.
-/

namespace ChartNet

/-- How a literal array is written. -/
inductive LiteralForm where
  | string
  | list
deriving DecidableEq

/-- What a phrase **means**. -/
inductive Meaning where
  | plain (e : Expr)
  | literal (form : LiteralForm) (value : ArrayValue)
deriving DecidableEq

/-- The expression that a meaning is. -/
def Meaning.expr : Meaning → Expr
  | plain e => e
  | literal _ v => .array v

/-- The place of a token. -/
def Token.place (t : Token) : Place where
  line := t.start.line
  column := t.start.column
  length := Text.width t.text

/-- The place of a phrase: that of its first token. -/
def Phrase.place (p : Phrase) : Option Place :=
  some p.first.place

/-- The text of a string between its quotes, with escapes replaced: `n`, `t` and `r` after a
backslash are control characters, any other character is itself. -/
def unescape : List Char → List Char
  | '\\' :: c :: cs =>
    (match c with
      | 'n' => '\n'
      | 't' => '\t'
      | 'r' => '\r'
      | c => c) :: unescape cs
  | c :: cs => c :: unescape cs
  | [] => []

/-- The text that a string token stands for. -/
def Token.stringValue (t : Token) : String :=
  String.ofList (unescape (t.text.toList.drop 1).dropLast)

/-- The number that a number token stands for: int if it has neither point nor exponent. -/
def Token.numberValue (t : Token) : Expr :=
  let x := Number.ofNumeral t.text.toList
  if t.text.toList.any fun c => c == '.' || c == 'e' || c == 'E' then .real x else .int x

/-- The negation of a number: literals change their sign, other expressions are subtracted from
zero. -/
def Expr.negate : Expr → Expr
  | lit (.num kind x) => lit (.num kind (-x))
  | e => binary .sub (int 0) e

/-- The binary operator of a token. -/
def TokenKind.binaryOp? : TokenKind → Option BinaryOp
  | .orOr => some .or
  | .andAnd => some .and
  | .equals => some .eq
  | .notEquals => some .ne
  | .less => some .lt
  | .lessEquals => some .le
  | .greater => some .gt
  | .greaterEquals => some .ge
  | .plus => some .add
  | .minus => some .sub
  | .star => some .mul
  | .slash => some .div
  | .percent => some .mod
  | _ => none

/-- Whether a token compares for equality. -/
def TokenKind.isEquality : TokenKind → Bool
  | .equals | .notEquals => true
  | _ => false

/-- Words that look like values and are none. -/
def rejectedNames : List String := ["True", "False", "undefined", "null"]

/-! ### Comparing with a literal array -/

mutual

/-- The conditions that an element equals what `c` selects. -/
def elementEquality (c : AccessChain) (base : NumKind) : Element → Expr
  | .num x => .eq c.toExpr (.lit (.num base x))
  | .list items =>
    .conjunction (.eq c.length (.nat items.length) :: elementEqualities c base 0 items)

/-- The conditions that elements equal what `c` selects from index `i` on. -/
def elementEqualities (c : AccessChain) (base : NumKind) (i : Nat) : List Element → List Expr
  | [] => []
  | el :: els =>
    elementEquality (c.push (.nat i)) base el :: elementEqualities c base (i + 1) els

end

/-- The condition that what `c` selects **equals** an array value: the lengths of all dimensions
and all elements agree. -/
def arrayEquality (c : AccessChain) (value : ArrayValue) : Expr :=
  elementEquality c value.base (.list value.elements)

/-! ### Meanings -/

namespace Phrase

/-- Resolves a name at the end of a chain: constants get their value, and words that are no values
are refused. -/
def resolve (p : Phrase) : Meaning → Result Meaning
  | .plain (.ident n) =>
    match NamedConstant.ofName? n with
    | some c => .ok (.plain (.lit (.constant c)))
    | none =>
      if rejectedNames.contains n then failType (.notValue n) p.place
      else .ok (.plain (.ident n))
  | m => .ok m

/-- The expression of a meaning that must be no literal array. -/
def plainOnly (p : Phrase) : Meaning → Result Expr
  | .plain e => .ok e
  | .literal .string _ => failType .stringOperand p.place
  | .literal .list _ => failType .arrayOperand p.place

/-- The meaning of a phrase by itself, from its meaning before names are resolved. -/
def whole (p : Phrase) (r : Result Meaning) : Result Meaning := do
  resolve p (← r)

/-- The expression of a phrase that is an operand. -/
def operand (p : Phrase) (r : Result Meaning) : Result Expr := do
  plainOnly p (← whole p r)

/-- The expression of a phrase that is followed by a member, an index or arguments. -/
def headOf (p : Phrase) (r : Result Meaning) : Result Expr := do
  plainOnly p (← r)

/-- The operand next to an equality sign in a chain of comparisons. -/
def comparand : Phrase → Phrase
  | binary op l r => if op.kind.isEquality then r else binary op l r
  | p => p

/-- The comparison of a literal array with another operand, written at `other`. -/
def compareLiteral (value : ArrayValue) (target : Expr) (other : Phrase) (negated : Bool) :
    Result Meaning :=
  match target.chain? with
  | none => failType .comparedLiteral other.place
  | some c =>
    let e := arrayEquality c value
    .ok (.plain (if negated then .not e else e))

/-- The comparison of two operands for equality. -/
def compare (op : Token) (l r : Phrase) : Meaning → Meaning → Result Meaning
  | .plain a, .plain b =>
    .ok (.plain (.binary (if op.kind = .notEquals then .ne else .eq) a b))
  | .literal _ _, .literal _ _ => failType .twoLiterals (some op.place)
  | .literal _ v, .plain b => compareLiteral v b r (op.kind = .notEquals)
  | .plain a, .literal _ v => compareLiteral v a (comparand l) (op.kind = .notEquals)

/-- The member of a name; `.length` is the length of what is before it. -/
def memberOf (e : Expr) (name : Token) : Result Expr :=
  if name.text = "length" then e.lengthReference (some name.place)
  else
    match e with
    | .ident n => .ok (.ident (n ++ "." ++ name.text))
    | _ => failUnsupported (.member name.text) (some name.place)

/-- The element of a list literal that a meaning is, with the kind of its numbers. -/
def elementOf (p : Phrase) : Meaning → Result (NumKind × Element)
  | .literal .list v => .ok (v.base, .list v.elements)
  | .plain (.lit (.num kind x)) => .ok (kind, .num x)
  | _ => failType .elementNotNumber p.place

/-- The expression of a unary operator. -/
def applyUnary (op : Token) (e : Expr) : Expr :=
  match op.kind with
  | .bang => .not e
  | .minus => e.negate
  | _ => e

mutual

/-- The meaning of a phrase **before** its name is resolved. -/
def raw : Phrase → Result Meaning
  | number t => .ok (.plain t.numberValue)
  | string t => .ok (.literal .string (.ofText t.stringValue))
  | truth _ b => .ok (.plain (.bool b))
  | name t => .ok (.plain (.ident t.text))
  | group _ p => whole p (raw p)
  | list _ items => do
    let elements ← rawElements items
    let base := elements.foldl (fun k e => k.join e.1) .int
    return .literal .list ⟨base, elements.map (·.2)⟩
  | member b t => do
    let e ← headOf b (raw b)
    return .plain (← memberOf e t)
  | index b opening i => do
    let e ← headOf b (raw b)
    if e.chain?.isNone then failUnsupported .indexing (some opening.place)
    return .plain (.access e (← operand i (raw i)))
  | call b opening args => do
    let e ← headOf b (raw b)
    match e with
    | .ident callee =>
      let operands ← rawOperands args
      let place : Place :=
        { line := opening.start.line, column := opening.start.column, length := Text.width callee }
      return .plain (← buildCall callee operands (some place))
    | _ => failUnsupported .callee (some opening.place)
  | unary op p => do
    return .plain (applyUnary op (← operand p (raw p)))
  | binary op l r =>
    if op.kind.isEquality then do
      let a ← whole l (raw l)
      let b ← whole r (raw r)
      compare op l r a b
    else do
      let a ← operand l (raw l)
      let b ← operand r (raw r)
      match op.kind.binaryOp? with
      | some o => return .plain (.binary o a b)
      | none => return .plain a
  | conditional t a b => do
    let test ← operand t (raw t)
    let whenTrue ← operand a (raw a)
    let whenFalse ← operand b (raw b)
    return .plain (.ite test whenTrue whenFalse)

/-- The expressions of operands, in order. -/
def rawOperands : List Phrase → Result (List Expr)
  | [] => .ok []
  | p :: ps => do
    let e ← operand p (raw p)
    return e :: (← rawOperands ps)

/-- The elements of a list literal, in order. -/
def rawElements : List Phrase → Result (List (NumKind × Element))
  | [] => .ok []
  | p :: ps => do
    let m ← whole p (raw p)
    let e ← elementOf p m
    return e :: (← rawElements ps)

end

/-- The **meaning** of a phrase. -/
def meaning (p : Phrase) : Result Meaning :=
  whole p (raw p)

end Phrase

end ChartNet
