import ChartNet.Error

/-!
# Array accesses and length variables

An **access chain** is a variable with indexes, `a[i][j]`. Every array variable has one **length
variable** per dimension, which holds how much of the capacity is in use: for `a` itself, then
for each row of `a`, and so on. `.length` of an access chain reads the length variable of the next
dimension at the same indexes.
-/

namespace ChartNet

/-- The name of the length variable of a dimension, counted from one. -/
def lengthName (name : String) (dimension : Nat) : String :=
  name ++ ".d" ++ Number.natText dimension ++ "_len"

/-- A variable with indexes, outermost first. -/
structure AccessChain where
  root : String
  indexes : List Expr
deriving DecidableEq

namespace Expr

/-- The **access chain** that an expression is. -/
def chain? : Expr → Option AccessChain
  | ident n => some ⟨n, []⟩
  | binary .access a i => a.chain?.map fun c => { c with indexes := c.indexes ++ [i] }
  | _ => none

end Expr

namespace AccessChain

/-- The expression of an access chain. -/
def toExpr (c : AccessChain) : Expr :=
  c.indexes.foldl Expr.access (.ident c.root)

/-- The chain with one more index. -/
def push (c : AccessChain) (i : Expr) : AccessChain :=
  { c with indexes := c.indexes ++ [i] }

/-- The length of a dimension of `root`, counted from one, at the indexes before it. -/
def dimensionLength (root : String) (dimension : Nat) (indexes : List Expr) : Expr :=
  (indexes.take (dimension - 1)).foldl Expr.access (.ident (lengthName root dimension))

/-- The length of what a chain selects. -/
def length (c : AccessChain) : Expr :=
  dimensionLength c.root (c.indexes.length + 1) c.indexes

@[simp] theorem toExpr_push (c : AccessChain) (i : Expr) :
    (c.push i).toExpr = .access c.toExpr i := by
  simp [toExpr, push, List.foldl_append]

end AccessChain

/-- An access chain is the chain of its expression. -/
theorem Expr.toExpr_of_chain? {e : Expr} {c : AccessChain} (h : e.chain? = some c) :
    c.toExpr = e := by
  fun_induction Expr.chain? e generalizing c with
  | case1 n => cases h; rfl
  | case2 a i ih =>
    cases ha : a.chain? with
    | none => simp [ha] at h
    | some d =>
      simp only [ha, Option.map_some, Option.some.injEq] at h
      subst h
      have := ih ha
      simp [AccessChain.toExpr, List.foldl_append] at this ⊢
      rw [this]
      rfl
  | case3 => simp at h

/-- What `.length` of an expression reads. -/
def Expr.lengthReference (e : Expr) (place : Option Place := none) : Result Expr :=
  match e.chain? with
  | some c => .ok c.length
  | none => failUnsupported .lengthTarget place

end ChartNet
