import ChartNet.Chart.Compile
import ChartNet.Proofs.Build

/-!
# What is written in a chart

The steps of a chart stand at its states and at the targets of their transitions, and within
choices. This module lists them, and the texts and names that they and the rest of the chart are
written with, so that what a compilation reads from a chart can be told without compiling it.
-/

namespace ChartNet

/-! ### Steps and what is written in them -/

mutual

/-- The **steps among** steps: they and those within choices. -/
def stepsAmong : List Step → List Step
  | [] => []
  | .assign location expr :: rest => .assign location expr :: stepsAmong rest
  | .send event params :: rest => .send event params :: stepsAmong rest
  | .choose branches otherwise :: rest =>
    .choose branches otherwise ::
      (stepsAmongBranches branches ++ stepsAmongOtherwise otherwise ++ stepsAmong rest)

/-- The steps among those of branches. -/
def stepsAmongBranches : List (String × List Step) → List Step
  | [] => []
  | (_, steps) :: rest => stepsAmong steps ++ stepsAmongBranches rest

/-- The steps among those that are done otherwise. -/
def stepsAmongOtherwise : Option (List Step) → List Step
  | none => []
  | some steps => stepsAmong steps

end

theorem stepsAmong_append (steps others : List Step) :
    stepsAmong (steps ++ others) = stepsAmong steps ++ stepsAmong others := by
  induction steps with
  | nil => simp [stepsAmong]
  | cons step rest ih => cases step <;> simp [stepsAmong, ih]

namespace Step

/-- The texts of the **conditions** of a step. -/
def conditions : Step → List String
  | choose branches _ => branches.map (·.1)
  | _ => []

/-- The text of the **location** that a step assigns to. -/
def locations : Step → List String
  | assign location _ => [location]
  | _ => []

/-- The **event** that a step sends. -/
def events : Step → List String
  | send event _ => [event]
  | _ => []

end Step

/-! ### What is written in a chart -/

/-- The bodies that are written at a state. -/
def State.bodies (s : State) : List (List Step) :=
  s.onEntry.toList ++ s.onExit.toList ++
    (s.transitions.getD []).flatMap fun t => t.goal.targets.filterMap (·.body)

/-- The text of an amount that is not a number. -/
def Amount.text? : Amount → Option String
  | number _ => none
  | source text => some text

/-- The texts of the **bounds** of an entry. -/
def Data.boundTexts (d : Data) : List String :=
  (d.lowerBound.toList ++ d.upperBound.toList).filterMap Amount.text?

namespace Chart

/-- The **steps** of a chart, also those within choices. -/
def steps (c : Chart) : List Step :=
  c.states.flatMap fun s => s.bodies.flatMap stepsAmong

/-- The texts of all **conditions** of a chart: those of its transitions and of its branches. -/
def conditions (c : Chart) : List String :=
  (c.states.flatMap fun s => (s.transitions.getD []).filterMap (·.cond)) ++
    c.steps.flatMap (·.conditions)

/-- The texts of all **locations** that a chart assigns to. -/
def locations (c : Chart) : List String :=
  c.steps.flatMap (·.locations)

/-- The texts of all **bounds** of the data of a chart. -/
def boundTexts (c : Chart) : List String :=
  (c.datamodel.getD []).flatMap (·.boundTexts)

/-- The **events** that are named in a chart: those of its transitions and those that it sends. -/
def events (c : Chart) : List String :=
  (c.states.flatMap fun s => (s.transitions.getD []).filterMap (·.event)) ++
    c.steps.flatMap (·.events)

variable {c : Chart}

theorem mem_conditions {s : State} {t : Transition} {text : String} (hs : s ∈ c.states)
    (ht : t ∈ s.transitions.getD []) (hcond : t.cond = some text) : text ∈ c.conditions :=
  List.mem_append_left _ (List.mem_flatMap.2 ⟨s, hs, List.mem_filterMap.2 ⟨t, ht, hcond⟩⟩)

theorem mem_events {s : State} {t : Transition} {event : String} (hs : s ∈ c.states)
    (ht : t ∈ s.transitions.getD []) (hevent : t.event = some event) : event ∈ c.events :=
  List.mem_append_left _ (List.mem_flatMap.2 ⟨s, hs, List.mem_filterMap.2 ⟨t, ht, hevent⟩⟩)

/-- The steps of a body that is written at a state are steps of the chart. -/
theorem mem_steps {s : State} (body : Option (List Step)) (hs : s ∈ c.states)
    (hbody : ∀ steps, body = some steps → steps ∈ s.bodies) :
    ∀ x ∈ stepsAmong (body.getD []), x ∈ c.steps := by
  cases body with
  | none => simp [stepsAmong]
  | some steps =>
    exact fun x hx => List.mem_flatMap.2 ⟨s, hs, List.mem_flatMap.2 ⟨steps, hbody steps rfl, hx⟩⟩

/-- A state that is found is one of the chart, and has the name. -/
theorem mem_of_state {id : String} {s : State} (h : c.state id = .ok s) :
    s ∈ c.states ∧ s.id = id := by
  simp only [state] at h
  split at h
  · rename_i s' hfind
    cases h
    exact ⟨List.mem_of_find?_eq_some hfind, by simpa using List.find?_some hfind⟩
  · cases h

/-- The ways of a transition lead to its targets, at states of the chart. -/
theorem mem_of_ways {constants : Constants} {t : Transition} {ways : List Way}
    (h : c.ways constants t = .ok ways) :
    ∀ w ∈ ways, w.target ∈ t.goal.targets ∧ w.state ∈ c.states ∧ w.state.id = w.target.target := by
  intro w hw
  obtain ⟨probabilities, -, hways⟩ := Result.bind_eq_ok.1 h
  obtain ⟨⟨target, p⟩, hmem, hway⟩ := exists_of_mem_forall₂ (Result.mapM_eq_ok.1 hways) hw
  obtain ⟨s, hs, heq⟩ := Result.bind_eq_ok.1 hway
  cases heq
  exact ⟨(List.of_mem_zip hmem).1, mem_of_state hs⟩

/-- The steps on the way to a target are steps of the chart. -/
theorem mem_steps_of_way {s : State} {t : Transition} {w : Way} (hs : s ∈ c.states)
    (ht : t ∈ s.transitions.getD []) (htarget : w.target ∈ t.goal.targets)
    (hstate : w.state ∈ c.states) :
    ∀ x ∈ stepsAmong (s.onExit.getD [] ++ w.target.body.getD [] ++ w.state.onEntry.getD []),
      x ∈ c.steps := by
  simp only [stepsAmong_append, List.forall_mem_append]
  refine ⟨⟨mem_steps _ hs fun steps h => ?_, mem_steps _ hs fun steps h => ?_⟩,
    mem_steps _ hstate fun steps h => ?_⟩
  · simp [State.bodies, h]
  · exact List.mem_append_right _ (List.mem_flatMap.2 ⟨t, ht, List.mem_filterMap.2 ⟨_, htarget, h⟩⟩)
  · simp [State.bodies, h]

end Chart

end ChartNet
