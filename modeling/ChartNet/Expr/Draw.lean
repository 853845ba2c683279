import ChartNet.Expr.Type

/-!
# Drawing from distributions

A uniform distribution is approximated by evenly spaced values that are equally likely.
`Expr.draws` lists the expressions that arise when every distribution in an expression is
replaced by one of its values, in all combinations; the first distribution varies slowest.
-/

namespace ChartNet

/-- The evenly spaced values that stand for a uniform distribution. -/
def uniformDraws (n : Size) (lower upper : Float) : List Expr :=
  (List.range n.count).map fun k =>
    .real (lower + (Float.ofNat k * (upper - lower)) / n.toFloat)

/-- The expressions with every distribution replaced by one of `n` values. -/
def Expr.draws (n : Size) : Expr → List Expr
  | ident x => [ident x]
  | lit v => [lit v]
  | array v => [array v]
  | uniform l u => uniformDraws n l u
  | unary op a => (a.draws n).map (unary op)
  | binary op a b => (a.draws n).flatMap fun x => (b.draws n).map fun y => binary op x y
  | ternary op a b c =>
    (a.draws n).flatMap fun x => (b.draws n).flatMap fun y => (c.draws n).map fun z =>
      ternary op x y z
  | quaternary op a b c d =>
    (a.draws n).flatMap fun x => (b.draws n).flatMap fun y => (c.draws n).flatMap fun z =>
      (d.draws n).map fun w => quaternary op x y z w

end ChartNet
