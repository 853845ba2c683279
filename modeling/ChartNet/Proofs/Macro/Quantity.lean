import ChartNet.Proofs.Macro.NormalForm

/-!
# Reading expressions as quantities

Expressions are **read** as quantities of an ordered field with square roots (`Expr.readIn`):
numbers by the arithmetic operators, truth values by comparisons and logical operators on all their
operands, and a conditional by its test and the branch that this chooses. A division by zero stands
for nothing, and so does everything that needs it; a power is read only if it is the root of a
number that is not negative.
-/

namespace ChartNet

open Number (numberOf)

/-- A **quantity** is a number of a field or a truth value. -/
inductive Quantity (K : Type*) where
  | num (x : K)
  | truth (b : Bool)

section Quantity

variable {K : Type*} [Field K] [LinearOrder K]

/-- What an operator makes of two quantities, given square roots. -/
def Quantity.apply (sqrt : K → K) : BinaryOp → Quantity K → Quantity K → Option (Quantity K)
  | .add, num x, num y => some (num (x + y))
  | .sub, num x, num y => some (num (x - y))
  | .mul, num x, num y => some (num (x * y))
  | .div, num x, num y => if y = 0 then none else some (num (x / y))
  | .min, num x, num y => some (num (min x y))
  | .max, num x, num y => some (num (max x y))
  | .pow, num x, num y => if 0 ≤ x ∧ y = 1 / 2 then some (num (sqrt x)) else none
  | .and, truth a, truth b => some (truth (a && b))
  | .or, truth a, truth b => some (truth (a || b))
  | .implies, truth a, truth b => some (truth (!a || b))
  | .eq, truth a, truth b => some (truth (a == b))
  | .ne, truth a, truth b => some (truth (a != b))
  | .eq, num x, num y => some (truth (decide (x = y)))
  | .ne, num x, num y => some (truth (decide (x ≠ y)))
  | .lt, num x, num y => some (truth (decide (x < y)))
  | .le, num x, num y => some (truth (decide (x ≤ y)))
  | .gt, num x, num y => some (truth (decide (y < x)))
  | .ge, num x, num y => some (truth (decide (y ≤ x)))
  | _, _, _ => none

/-- The **quantity** that an expression stands for, if there is one: there is none where a number is
divided by zero. A conditional stands for the branch that its test chooses; the other branch need
not stand for anything. -/
def Expr.readIn (sqrt : K → K) (σ : String → K) : Expr → Option (Quantity K)
  | ident name => some (.num (σ name))
  | lit (.num _ x) => some (.num (numberOf x : ℚ))
  | lit (.bool b) => some (.truth b)
  | unary .abs a => do
    match ← a.readIn sqrt σ with
    | .num x => some (.num |x|)
    | .truth _ => none
  | unary .not a => do
    match ← a.readIn sqrt σ with
    | .truth b => some (.truth !b)
    | .num _ => none
  | binary op a b => do Quantity.apply sqrt op (← a.readIn sqrt σ) (← b.readIn sqrt σ)
  | ternary .ite test a b => do
    match ← test.readIn sqrt σ with
    | .truth true => a.readIn sqrt σ
    | .truth false => b.readIn sqrt σ
    | .num _ => none
  | _ => none

variable {sqrt : K → K} {σ : String → K} {a b c : Expr} {x y : K}

/-! ### Conditions -/

namespace Expr

variable {p q : Prop} [Decidable p] [Decidable q]

theorem readIn_binary (op : BinaryOp) {v w : Quantity K} (ha : a.readIn sqrt σ = some v)
    (hb : b.readIn sqrt σ = some w) :
    (binary op a b).readIn sqrt σ = Quantity.apply sqrt op v w := by
  change (do Quantity.apply sqrt op (← a.readIn sqrt σ) (← b.readIn sqrt σ)) = _
  rw [ha, hb]
  rfl

theorem readIn_lt (ha : a.readIn sqrt σ = some (.num x)) (hb : b.readIn sqrt σ = some (.num y)) :
    (binary .lt a b).readIn sqrt σ = some (.truth (decide (x < y))) :=
  readIn_binary .lt ha hb

theorem readIn_eq (ha : a.readIn sqrt σ = some (.num x)) (hb : b.readIn sqrt σ = some (.num y)) :
    (Expr.eq a b).readIn sqrt σ = some (.truth (decide (x = y))) :=
  readIn_binary .eq ha hb

theorem readIn_and (ha : a.readIn sqrt σ = some (.truth (decide p)))
    (hb : b.readIn sqrt σ = some (.truth (decide q))) :
    (Expr.and a b).readIn sqrt σ = some (.truth (decide (p ∧ q))) := by
  rw [Bool.decide_and]
  exact readIn_binary .and ha hb

theorem readIn_or (ha : a.readIn sqrt σ = some (.truth (decide p)))
    (hb : b.readIn sqrt σ = some (.truth (decide q))) :
    (binary .or a b).readIn sqrt σ = some (.truth (decide (p ∨ q))) := by
  rw [Bool.decide_or]
  exact readIn_binary .or ha hb

/-- Only the branch that is chosen has to have a value. -/
theorem readIn_ite (hc : c.readIn sqrt σ = some (.truth (decide p)))
    (ha : p → a.readIn sqrt σ = some (.num x)) (hb : ¬p → b.readIn sqrt σ = some (.num y)) :
    (Expr.ite c a b).readIn sqrt σ = some (.num (if p then x else y)) := by
  by_cases hp : p
  · simp [Expr.ite, readIn, hc, hp, ha hp]
  · simp [Expr.ite, readIn, hc, hp, hb hp]

end Expr

/-! ### The operators of the macros -/

namespace Macro

section Binary

variable (ha : a.readIn sqrt σ = some (.num x)) (hb : b.readIn sqrt σ = some (.num y))

include ha hb

theorem readIn_plus : (plus a b).readIn sqrt σ = some (.num (x + y)) :=
  Expr.readIn_binary .add ha hb

theorem readIn_minus : (minus a b).readIn sqrt σ = some (.num (x - y)) :=
  Expr.readIn_binary .sub ha hb

theorem readIn_times : (times a b).readIn sqrt σ = some (.num (x * y)) :=
  Expr.readIn_binary .mul ha hb

/-- There is no division by zero. -/
theorem readIn_quot (hy : y ≠ 0) : (quot a b).readIn sqrt σ = some (.num (x / y)) :=
  (Expr.readIn_binary .div ha hb).trans (if_neg hy)

theorem readIn_minimum : (minimum a b).readIn sqrt σ = some (.num (min x y)) :=
  Expr.readIn_binary .min ha hb

theorem readIn_maximum : (maximum a b).readIn sqrt σ = some (.num (max x y)) :=
  Expr.readIn_binary .max ha hb

theorem readIn_atLeast : (atLeast a b).readIn sqrt σ = some (.truth (decide (y ≤ x))) :=
  Expr.readIn_binary .ge ha hb

theorem readIn_norm2d [IsStrictOrderedRing K] :
    (norm2d a b).readIn sqrt σ = some (.num (sqrt (x * x + y * y))) := by
  have hhalf : (Expr.real 0.5).readIn sqrt σ = some (.num (1 / 2)) := by
    have : numberOf 0.5 = 1 / 2 := by decide +kernel
    simp [Expr.real, Expr.readIn, this]
  have hsum : 0 ≤ x * x + y * y := add_nonneg (mul_self_nonneg x) (mul_self_nonneg y)
  have hplus := readIn_plus (readIn_times ha ha) (readIn_times hb hb)
  exact (Expr.readIn_binary .pow hplus hhalf).trans (if_pos ⟨hsum, rfl⟩)

end Binary

theorem readIn_absolute (ha : a.readIn sqrt σ = some (.num x)) :
    (absolute a).readIn sqrt σ = some (.num |x|) := by
  simp [absolute, Expr.readIn, ha]

theorem readIn_zero : (Expr.real 0).readIn sqrt σ = some (.num 0) := by
  have : numberOf 0 = 0 := by decide +kernel
  simp [Expr.real, Expr.readIn, this]

theorem readIn_one : (Expr.real 1).readIn sqrt σ = some (.num 1) := by
  have : numberOf 1 = 1 := by decide
  simp [Expr.real, Expr.readIn, this]

end Macro

end Quantity

end ChartNet
