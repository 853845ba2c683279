import ChartNet.Expr.Access

/-!
# Array values

An array variable has a fixed capacity per dimension. A literal is **fitted** to the shape of its
target: it must not be larger in any dimension, nor deeper or shallower, and it is filled up with
zeros to the capacity. The lengths of the literal before it was filled up go into the length
variables.
-/

namespace ChartNet

/-- The elements of an array of zeros. -/
def zeroElement : List Size → Element
  | [] => .num 0
  | size :: rest => .list (List.replicate size.count (zeroElement rest))

/-- An array of zeros. -/
def zeroArray (shape : ArrayShape) : ArrayValue where
  base := shape.base
  elements :=
    match shape.sizes with
    | [] => []
    | size :: rest => List.replicate size.count (zeroElement rest)

/-- Fills a list up with copies of an element. -/
def fillTo (n : Nat) (zero : Element) (elements : List Element) : List Element :=
  elements ++ List.replicate (n - elements.length) zero

/-- Fits the elements of a value of kind `kind` to an array with the given base and capacities. -/
def fitElements (kind base : NumKind) (pad : Bool) : List Size → List Element →
    Result (List Element)
  | [], _ => failType .literalTooDeep
  | size :: rest, elements => do
    if !size.admits elements.length then failType (.literalTooLong elements.length size)
    let fitted ← elements.mapM fun el =>
      match rest, el with
      | [], .list _ => failType .literalTooDeep
      | [], .num x =>
        if kind = .real ∧ base = .int then failType (.realInIntArray x) else .ok (.num x)
      | _ :: _, .num _ => failType .literalTooShallow
      | _ :: _, .list items => (fitElements kind base pad rest items).map .list
    .ok (if pad then fillTo size.fill (zeroElement rest) fitted else fitted)

/-- **Fits** a value to a shape, filled up with zeros if `pad`. -/
def ArrayValue.fit (value : ArrayValue) (shape : ArrayShape) (pad : Bool) : Result ArrayValue :=
  (fitElements value.base shape.base pad shape.sizes value.elements).map (⟨shape.base, ·⟩)

/-- The lengths in use `k` dimensions below some elements: one number for `k = 0`, otherwise an
array over the capacities in between. -/
def lengthsBelow : Nat → List Size → List Element → Result Element
  | 0, _, elements => .ok (.num (Float.ofNat elements.length))
  | k + 1, sizes, elements => do
    let rest := sizes.tail
    let lengths ← elements.mapM fun
      | .list items => lengthsBelow k rest items
      | .num _ => failType .literalTooShallow
    .ok (.list (fillTo ((sizes.headD (.whole 0)).fill) (zeroElement (rest.take k)) lengths))

/-- The values of the **length variables** of a value that was fitted to a shape and not filled
up, one per dimension. -/
def ArrayValue.lengths (value : ArrayValue) (shape : ArrayShape) : Result (List Element) :=
  (List.range shape.sizes.length).mapM fun k => lengthsBelow k shape.sizes value.elements

/-- An element of an int array as an expression: a number, or an array value. -/
def Element.toExpr : Element → Expr
  | .num x => .int x
  | .list items => .array ⟨.int, items⟩

/-- The bytes of a text, as an int array holds it. -/
def ArrayValue.ofText (text : String) : ArrayValue where
  base := .int
  elements := text.toUTF8.data.toList.map fun b => .num (Float.ofNat b.toNat)

/-- How often elements are nested, following the first element of each list. -/
def nesting : List Element → Nat
  | .list items :: _ => nesting items + 1
  | _ => 1

/-- The number of dimensions of a value. -/
def ArrayValue.dimensions (value : ArrayValue) : Nat :=
  nesting value.elements

/-- The lengths of lists of elements, following the first element of each list. -/
def extents : List Element → List Nat
  | .list items :: rest => (rest.length + 1) :: extents items
  | elements => [elements.length]

/-- The shape of a value with the capacities that it uses. -/
def ArrayValue.shape (value : ArrayValue) : ArrayShape :=
  ⟨value.base, (extents value.elements).map .whole⟩

end ChartNet
