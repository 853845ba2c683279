import ChartNet.Chart.Body
import ChartNet.Proofs.Interpretation
import ChartNet.Proofs.Names

/-!
# Executing steps

The reference for what a body has to do is the **sequential execution** of its steps. Steps are
text, so they are first read: a `Task` is a step whose expressions, assignments and payloads are
known. Reading needs no locations, edges or indexes; it only has to register events in the order of
the steps, because the type of a field may depend on what was sent before.

Against it stands the **run** of a list of edges: from a location the one edge that is enabled there
is taken, its assignments are performed, and the run goes on at its destination. A run never
chooses, since each of its steps says that exactly one edge is enabled.
-/

namespace ChartNet

/-! ### Reading steps -/

/-- A **task**: a step with its expressions read. -/
inductive Task where
  | assign (assignments : List Assignment)
  | send (event : String) (payload : List Assignment)
  | choose (branches : List (Expr × List Task)) (otherwise : List Task)

mutual

/-- The **tasks** that steps are. The assignments of a step are numbered from zero. -/
def BodyScope.tasks (s : BodyScope) : List Step → EventM (List Task)
  | [] => return []
  | .assign location expr :: rest => do
    let scope := s.scope (← get)
    let assignments ← .ofResult (scope.assign location expr .zero)
    return .assign assignments :: (← s.tasks rest)
  | .send event params :: rest => do
    let payload ← s.send event (params.getD [])
    return .send event payload :: (← s.tasks rest)
  | .choose branches otherwise :: rest => do
    let branches ← s.branchTasks branches
    let otherwise ← s.otherwiseTasks otherwise
    return .choose branches otherwise :: (← s.tasks rest)

/-- The conditions and tasks of branches. -/
def BodyScope.branchTasks (s : BodyScope) :
    List (String × List Step) → EventM (List (Expr × List Task))
  | [] => return []
  | (text, steps) :: rest => do
    let condition ← .ofResult (Source.parseFor s.event text)
    let tasks ← s.tasks steps
    return (condition, tasks) :: (← s.branchTasks rest)

/-- The tasks of the steps that are done if no condition is true. -/
def BodyScope.otherwiseTasks (s : BodyScope) : Option (List Step) → EventM (List Task)
  | none => return []
  | some steps => s.tasks steps

end

/-! ### Sequential execution -/

namespace Interpretation

variable (I : Interpretation)

mutual

/-- **Executes** tasks one after another: the store at the end, and the events sent on the way. -/
def execute : List Task → I.Store → I.Store × List String
  | [], σ => (σ, [])
  | .assign assignments :: rest, σ => execute rest (I.perform assignments σ)
  | .send event payload :: rest, σ =>
    let (σ', events) := execute rest (I.together payload σ)
    (σ', event :: events)
  | .choose branches otherwise :: rest, σ =>
    let (σ₁, before) := (executeFirst branches σ).getD (execute otherwise σ)
    let (σ₂, after) := execute rest σ₁
    (σ₂, before ++ after)

/-- Executes the first branch whose condition is true; `none` if there is none. -/
def executeFirst : List (Expr × List Task) → I.Store → Option (I.Store × List String)
  | [], _ => none
  | (condition, tasks) :: rest, σ =>
    if (I.judge σ).holds condition then some (execute tasks σ) else executeFirst rest σ

end

/-! ### Runs of edges -/

/-- The edges that are **enabled** at a location in a store. -/
def enabled (edges : List Edge) (l : String) (σ : I.Store) : List Edge :=
  edges.filter fun e => e.location == l && (I.judge σ).admits e.guard

/-- A **run** from a location and a store to others. In each step exactly one edge is enabled, and
it has one destination. -/
inductive Run (edges : List Edge) : String → I.Store → List Edge → String → I.Store → Prop
  | stop (l : String) (σ : I.Store) : Run edges l σ [] l σ
  | step {l l₁ l' : String} {σ σ' : I.Store} {e : Edge} {d : Destination} {trace : List Edge}
      (henabled : I.enabled edges l σ = [e]) (hdestination : e.destinations = [d])
      (hlocation : d.location = some l₁)
      (hrest : Run edges l₁ (I.perform d.assignments σ) trace l' σ') :
      Run edges l σ (e :: trace) l' σ'

end Interpretation

/-- The send actions along some edges, in order. -/
def sendsAlong (trace : List Edge) : List String :=
  (trace.filterMap (·.action)).filter isSend

/-! ### Small facts -/

@[simp] theorem sendsAlong_nil : sendsAlong [] = [] := rfl

@[simp] theorem sendsAlong_append (t u : List Edge) :
    sendsAlong (t ++ u) = sendsAlong t ++ sendsAlong u := by
  simp [sendsAlong]

namespace Interpretation

variable {I : Interpretation} {edges : List Edge}

/-- Runs can be put together. -/
theorem Run.append {l l₁ l₂ : String} {σ σ₁ σ₂ : I.Store} {t u : List Edge}
    (h : I.Run edges l σ t l₁ σ₁) (h' : I.Run edges l₁ σ₁ u l₂ σ₂) :
    I.Run edges l σ (t ++ u) l₂ σ₂ := by
  induction h with
  | stop l σ => exact h'
  | step henabled hdestination hlocation hrest ih =>
    exact .step henabled hdestination hlocation (ih h')

end Interpretation

end ChartNet
