import ChartNet.Chart
import ChartNet.Expr.Constant
import ChartNet.Source

/-!
# Probabilities of targets

Each target of a transition has a **probability**, a number or an expression over the constants; a
target without one takes what the targets before it have left. All are positive, and they sum to
one up to a small tolerance.
-/

namespace ChartNet

/-- By how much the probabilities of a transition may miss one. -/
def probabilityTolerance : Float := 1e-6

/-- The number that a given probability is. -/
def Amount.probability (constants : Constants) : Amount → Result Float
  | .number x => .ok x
  | .source text =>
    match Source.parse text >>= Expr.evaluate constants with
    | .ok (.num x) => .ok x
    | .ok (.bool _) => failModel (.probabilityNotNumber text)
    | .error e => failModel (.probabilityNotConstant text e.message e.fault.hint)

/-- The probability of a target if the ones before it have `total` together. -/
def Target.probability (constants : Constants) (total : Float) (t : Target) : Result Float := do
  let p ←
    match t.prob with
    | some amount => amount.probability constants
    | none => .ok (1 - total)
  if p > 0 then return p else failModel (.probabilityNotPositive t.target p)

/-- The probabilities of targets and their total, if earlier ones have `total` together. -/
def probabilitiesFrom (constants : Constants) (total : Float) :
    List Target → Result (List Float × Float)
  | [] => .ok ([], total)
  | t :: ts => do
    let p ← t.probability constants total
    let (ps, sum) ← probabilitiesFrom constants (total + p) ts
    return (p :: ps, sum)

/-- The **probabilities** of the targets of a transition. -/
def targetProbabilities (constants : Constants) (targets : List Target) : Result (List Float) := do
  let (ps, sum) ← probabilitiesFrom constants 0 targets
  if (1 - sum).abs > probabilityTolerance then failModel (.probabilitySum sum)
  return ps

end ChartNet
