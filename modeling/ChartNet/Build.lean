import ChartNet.Error

/-!
# Building step by step

A **build** changes a state and may fail. What it did before it failed stays done, so that a
later part can go on from there.
-/

namespace ChartNet

/-- A computation that **builds** on a state and may fail. -/
abbrev Build (σ α : Type) := ExceptT CompileError (StateM σ) α

namespace Build

variable {σ α : Type}

/-- A result that leaves the state as it is. -/
def ofResult (r : Result α) : Build σ α := ExceptT.mk (pure r)

/-- A change that either happens as a whole or leaves the state as it is. -/
def change (f : σ → Result σ) : Build σ Unit :=
  ExceptT.mk fun s =>
    match f s with
    | .ok s' => (.ok (), s')
    | .error e => (.error e, s)

/-- A computation whose error names the part of the chart that it concerns. -/
def within (outer : Context) (x : Build σ α) : Build σ α :=
  ExceptT.mk (Result.within outer <$> x.run)

@[simp] theorem run_change_ok {f : σ → Result σ} {s s' : σ} (h : f s = .ok s') :
    (change f).run.run s = (.ok (), s') := by
  simp [change, ExceptT.run, ExceptT.mk, StateT.run, h]

/-- A change that is refused leaves the state as it is. -/
@[simp] theorem run_change_error {f : σ → Result σ} {s : σ} {e : CompileError}
    (h : f s = .error e) : (change f).run.run s = (.error e, s) := by
  simp [change, ExceptT.run, ExceptT.mk, StateT.run, h]

end Build

end ChartNet
