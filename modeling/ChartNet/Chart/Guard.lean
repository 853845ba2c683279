import ChartNet.Expr.Basic

/-!
# Guards

Transitions of one state on one event are tried in order, and so are the branches of a choice: a
later one happens only if no earlier one does. Its **guard** says so.
-/

namespace ChartNet

/-- The **guard** of a transition or branch after others with the conditions `previous`: its own
condition, or `true`, and none of the earlier ones. -/
def guardAfter (previous : List Expr) (current : Option Expr) : Expr :=
  previous.foldl (fun joint p => joint.and p.not) (current.getD (.bool true))

@[simp] theorem guardAfter_nil (current : Option Expr) :
    guardAfter [] current = current.getD (.bool true) := rfl

@[simp] theorem guardAfter_append_singleton (previous : List Expr) (p : Expr)
    (current : Option Expr) :
    guardAfter (previous ++ [p]) current = (guardAfter previous current).and p.not := by
  simp [guardAfter]

end ChartNet
