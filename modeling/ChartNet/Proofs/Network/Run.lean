import Mathlib
import ChartNet.Model

/-!
# Runs of networks

A model **runs** as a network: in each step the participants of one synchronisation of the
composition move together, each along an edge with its action, or one automaton moves alone along an
edge without an action. Which guards are true and how moves change the data is left open: `Dynamics`
stands for any way of doing it, so what is proved about runs holds for all of them. In particular no
statement about runs depends on how the destination of an edge is chosen.
-/

namespace ChartNet

/-- A **move** of an automaton: along an edge to one of its destinations. -/
structure Move where
  automaton : String
  edge : Edge
  destination : Destination

/-- What a network does with **data**: which edges the guards admit, and which data follows on which
after some moves. -/
structure Dynamics where
  Data : Type
  admits : Data → String → Edge → Prop
  update : Data → List Move → Data → Prop

/-- A **snapshot** of a running network: the location of each automaton, and the data. -/
structure Snapshot (D : Dynamics) where
  location : String → String
  data : D.Data

namespace Model

variable {D : Dynamics}

/-- An automaton of a model **can move** in a snapshot. -/
structure CanMove (m : Model) (σ : Snapshot D) (v : Move) : Prop where
  edge : ∃ a ∈ m.automata, a.name = v.automaton ∧ v.edge ∈ a.edges
  location : v.edge.location = σ.location v.automaton
  guard : D.admits σ.data v.automaton v.edge
  destination : v.destination ∈ v.edge.destinations

/-- Where automata are after some moves; those that do not move stay. -/
def locationAfter (moves : List Move) (location : String → String) (automaton : String) : String :=
  match moves.find? (·.automaton == automaton) with
  | some v => v.destination.location.getD (location automaton)
  | none => location automaton

/-- A **step** of a network with its moves. -/
inductive Step (m : Model) (c : Composition) (σ : Snapshot D) : List Move → Snapshot D → Prop
  | sync {s : Sync} {moves : List Move} {data : D.Data} (hsync : s ∈ c.syncs)
      (hparticipants : moves.map (fun v => (v.automaton, v.edge.action)) =
        s.participants.map fun p => (p.1, some p.2))
      (hmoves : ∀ v ∈ moves, m.CanMove σ v) (hdata : D.update σ.data moves data) :
      Step m c σ moves ⟨locationAfter moves σ.location, data⟩
  | silent {v : Move} {data : D.Data} (haction : v.edge.action = none) (hmove : m.CanMove σ v)
      (hdata : D.update σ.data [v] data) :
      Step m c σ [v] ⟨locationAfter [v] σ.location, data⟩

/-- In an **initial** snapshot every automaton is in its initial location. -/
def IsInitial (m : Model) (σ : Snapshot D) : Prop :=
  ∀ a ∈ m.automata, a.initial = some (σ.location a.name)

/-- A **run** from an initial snapshot, with the moves of its steps. -/
inductive Run (m : Model) (c : Composition) : List (List Move) → Snapshot D → Prop
  | start {σ : Snapshot D} (hinitial : m.IsInitial σ) : Run m c [] σ
  | step {trace : List (List Move)} {moves : List Move} {σ σ' : Snapshot D}
      (hrun : Run m c trace σ) (hstep : m.Step c σ moves σ') : Run m c (trace ++ [moves]) σ'

/-- Several **steps** one after another, with their moves. -/
inductive Steps (m : Model) (c : Composition) :
    Snapshot D → List (List Move) → Snapshot D → Prop
  | refl (σ : Snapshot D) : Steps m c σ [] σ
  | head {trace : List (List Move)} {moves : List Move} {σ σ₁ σ' : Snapshot D}
      (hstep : m.Step c σ moves σ₁) (hsteps : Steps m c σ₁ trace σ') :
      Steps m c σ (moves :: trace) σ'

variable {m : Model} {c : Composition} {trace trace' : List (List Move)} {moves : List Move}
  {σ σ₁ σ' : Snapshot D}

theorem Steps.snoc (h : m.Steps c σ trace σ₁) (hstep : m.Step c σ₁ moves σ') :
    m.Steps c σ (trace ++ [moves]) σ' := by
  induction h with
  | refl => exact .head hstep (.refl _)
  | head hfirst _ ih => exact .head hfirst (ih hstep)

/-- A run may go on with any steps. -/
theorem Run.append (h : m.Run c trace σ) (hsteps : m.Steps c σ trace' σ') :
    m.Run c (trace ++ trace') σ' := by
  induction hsteps generalizing trace with
  | refl => rwa [List.append_nil]
  | head hstep _ ih =>
    rw [List.append_cons]
    exact ih (h.step hstep)

/-- A run consists of an earlier run and the **steps since** then. -/
theorem Run.split (h : m.Run c (trace ++ trace') σ') :
    ∃ σ, m.Run c trace σ ∧ m.Steps c σ trace' σ' := by
  induction trace' using List.reverseRecOn generalizing σ' with
  | nil => exact ⟨σ', by rwa [List.append_nil] at h, .refl σ'⟩
  | append_singleton rest moves ih =>
    rw [← List.append_assoc] at h
    generalize htrace : trace ++ rest ++ [moves] = whole at h
    cases h with
    | start => simp at htrace
    | step hrun hstep =>
      obtain ⟨rfl, hlast⟩ := List.append_inj' htrace rfl
      obtain rfl := List.singleton_inj.1 hlast
      obtain ⟨σ, hearlier, hsteps⟩ := ih hrun
      exact ⟨σ, hearlier, hsteps.snoc hstep⟩

end Model

end ChartNet
