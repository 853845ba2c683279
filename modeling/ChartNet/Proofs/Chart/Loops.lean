import ChartNet.Proofs.Body.Steps
import ChartNet.Proofs.Chart.Probabilities
import ChartNet.Proofs.Chart.Written

/-!
# Exclusion and loops

In a state of a compiled chart the edges on one event are **exclusive**: whatever the conditions
evaluate to, at most one is enabled, and it is that of the first transition whose condition is true.
If no condition is true, the loop that ignores the event is enabled, unless the state may block the
event. The same exclusion holds for the transitions without an event (`Chart.compile_exclusive`).

An edge is **idle** if it leads back to where it leaves from and assigns nothing. Loops that ignore
an event are idle, but they are not the only idle edges: a transition from a state to itself that
runs no steps has an idle edge, too, and no other transition has one (`Chart.Belongs.isIdle_iff`).
-/

namespace ChartNet

/-! ### Idle edges -/

/-- An edge is **idle** in a location if it leads from there back to it and does nothing. -/
structure Edge.IsIdle (e : Edge) (l : String) : Prop where
  location : e.location = l
  leads : e.destinations ≠ []
  destinations : ∀ d ∈ e.destinations, d.location = some l ∧ d.assignments = []

/-- A transition of a state **does nothing** if it leads to the state alone and runs no steps. -/
structure Transition.DoesNothing (t : Transition) (s : State) : Prop where
  targets : ∀ x ∈ t.goal.targets, x.target = s.id ∧ x.body.getD [] = []
  onExit : s.onExit.getD [] = []
  onEntry : s.onEntry.getD [] = []

namespace BodyScope

variable {s : BodyScope} {path : BodyPath} {probability : Expr} {events events' : Events}
  {body : Body}

/-- The edge that steps start on keeps the assignments before them. -/
theorem assignments_of_steps (steps : List Step) {assignments : List Assignment} {i : Nat}
    (h : (s.steps path probability assignments i steps).Yields events body events') :
    assignments <+: body.head.assignments := by
  induction steps generalizing assignments i events body with
  | nil =>
    obtain ⟨rfl, -⟩ := yields_steps_nil.1 h
    exact List.prefix_refl _
  | cons step rest ih =>
    cases step with
    | assign location expr =>
      obtain ⟨added, -, hrest⟩ := yields_steps_assign.1 h
      exact (List.prefix_append _ _).trans (ih hrest)
    | send event params =>
      obtain ⟨sent, events₁, next, -, -, rfl⟩ := yields_steps_send.1 h
      exact List.prefix_refl _
    | choose branches other =>
      obtain ⟨conditions, taken, events₁, last, events₂, next, -, -, -, rfl⟩ :=
        yields_steps_choose.1 h
      exact List.prefix_refl _

/-- A body leads back to where it starts, without an assignment, **only if there are no steps**: the
first step assigns something or leads to a new location. -/
theorem head_of_compile {steps : List Step}
    (h : (s.compile path probability steps).Yields events body events') :
    body.head.location = some path.source ∧ body.head.assignments = [] ↔
      path.target = path.source ∧ steps = [] := by
  cases steps with
  | nil =>
    obtain ⟨rfl, -⟩ := yields_steps_nil.1 h
    simp [Body.finish]
  | cons step rest =>
    refine iff_of_false ?_ (by simp)
    rintro ⟨hlocation, hassignments⟩
    cases step with
    | assign location expr =>
      obtain ⟨added, hadded, hrest⟩ := yields_steps_assign.1 h
      have hprefix := assignments_of_steps rest hrest
      rw [hassignments, List.prefix_nil, List.nil_append] at hprefix
      exact Scope.ne_nil_of_assign hadded hprefix
    | send event params =>
      obtain ⟨sent, events₁, next, -, -, rfl⟩ := yields_steps_send.1 h
      exact (path.owns_location 0).ne_source (Option.some.inj hlocation)
    | choose branches other =>
      obtain ⟨conditions, taken, events₁, last, events₂, next, -, -, -, rfl⟩ :=
        yields_steps_choose.1 h
      exact (path.owns_before branches other 0).ne_source (Option.some.inj hlocation)

end BodyScope

namespace Chart

variable {c : Chart} {setting : Setting} {s : State} {t : Transition} {automaton : String}
  {es es' : Events}

/-- The bodies of a transition lead back to its state, without assignments, if its ways do and run
no steps. -/
theorem heads_of_bodies {scope : BodyScope} (ways : List Way) {total : Float} {found : List Body}
    (h : (bodies scope s t total ways).Yields es found es') :
    (∀ b ∈ found, b.head.location = some s.id ∧ b.head.assignments = []) ↔
      ∀ w ∈ ways, w.target.target = s.id ∧
        s.onExit.getD [] ++ w.target.body.getD [] ++ w.state.onEntry.getD [] = [] := by
  induction ways generalizing total es found with
  | nil =>
    obtain ⟨rfl, -⟩ := yields_bodies_nil.1 h
    simp
  | cons w ws ih =>
    obtain ⟨body, es₁, others, hbody, hothers, rfl⟩ := yields_bodies_cons.1 h
    rw [List.forall_mem_cons, List.forall_mem_cons]
    exact and_congr (BodyScope.head_of_compile hbody) (ih hothers)

/-- Targets with probabilities are not none. -/
theorem ways_ne_nil {constants : Constants} {ways : List Way} (h : c.ways constants t = .ok ways) :
    ways ≠ [] := by
  rintro rfl
  obtain ⟨ps, hps, -, hprobabilities⟩ := ways_ok h
  obtain rfl : ps = [] := hprobabilities.symm
  have hsum := (addUp_of_targetProbabilities hps).2.sum
  exact absurd hsum (by decide)

/-- A transition has an **idle edge if and only if it does nothing**. -/
theorem Belongs.isIdle_iff {e : Edge} (h : c.Belongs setting s t e)
    (hnodup : (c.states.map (·.id)).Nodup) (hs : s ∈ c.states) :
    e.IsIdle s.id ↔ t.DoesNothing s := by
  obtain ⟨a, ways, es, es', found, hways, hfound, hdestinations⟩ := h.destinations
  obtain ⟨-, -, htargets, -⟩ := ways_ok hways
  have hne := ways_ne_nil hways
  -- a way back to the state enters this very state
  have hstate : ∀ w ∈ ways, w.target.target = s.id → w.state = s := by
    intro w hw htarget
    obtain ⟨-, hmem, hid⟩ := mem_of_ways hways w hw
    exact List.inj_on_of_nodup_map hnodup hmem hs (hid.trans htarget)
  have hidle : e.IsIdle s.id ↔ ∀ b ∈ found, b.head.location = some s.id ∧
    b.head.assignments = [] := by
    have hleads : e.destinations ≠ [] := by
      rw [hdestinations, Ne, List.map_eq_nil_iff]
      rintro rfl
      have hlength := congrArg List.length (bodies_certain ways hfound).1
      exact hne (by simpa using hlength.symm)
    refine ⟨fun hidle b hb => ?_, fun hheads => ⟨h.location, hleads, ?_⟩⟩
    · exact hidle.destinations _ (hdestinations ▸ List.mem_map_of_mem hb)
    · rw [hdestinations]
      exact List.forall_mem_map.2 hheads
  rw [hidle, heads_of_bodies ways hfound]
  constructor
  · intro hall
    obtain ⟨w, hw⟩ := List.exists_mem_of_ne_nil ways hne
    obtain ⟨htarget, hsteps⟩ := hall w hw
    rw [hstate w hw htarget, List.append_eq_nil_iff, List.append_eq_nil_iff] at hsteps
    refine ⟨fun x hx => ?_, hsteps.1.1, hsteps.2⟩
    rw [← htargets] at hx
    obtain ⟨w, hw, rfl⟩ := List.mem_map.1 hx
    obtain ⟨htarget, hsteps⟩ := hall w hw
    rw [List.append_eq_nil_iff, List.append_eq_nil_iff] at hsteps
    exact ⟨htarget, hsteps.1.2⟩
  · intro hnothing w hw
    obtain ⟨htarget, hbody⟩ := hnothing.targets w.target (htargets ▸ List.mem_map_of_mem hw)
    rw [hstate w hw htarget, hbody, hnothing.onExit, hnothing.onEntry]
    exact ⟨htarget, rfl⟩

/-- Loops that ignore an event are idle. -/
theorem IsLoop.isIdle {l : String} {e : Edge} (h : IsLoop l e) : e.IsIdle l := by
  refine ⟨h.location, by simp [h.destinations], ?_⟩
  rw [h.destinations]
  simp

section Exclusion

variable {p : StatePart} (h : c.IsPart setting automaton es p) (v : Valuation) {event : String}

include h

/-- Of the edges that receive an event at most one is enabled. -/
theorem IsPart.length_enabled_le :
    (v.enabled ((p.on (some event)).map (·.edge) ++ c.idle p event)).length ≤ 1 := by
  have hon := h.length_enabled_on_le v (some event)
  by_cases hname : event = ""
  · have hidle : c.idle p event = [] := by simp [idle, hname]
    rwa [hidle, List.append_nil]
  · cases hfirst : (p.on (some event)).find? fun k => v.permits k.transition with
    | none =>
      rw [(h.enabled_of_find?_eq_none v hname hfirst).1]
      exact length_idle_le
    | some k =>
      rw [(h.enabled_of_find?_eq_some v hname hfirst).1]
      exact Nat.le_refl _

/-- A state that may not block an event handles it by **one edge**, which is idle if no condition is
true or the first transition whose condition is true does nothing. -/
theorem IsPart.exists_enabled (hnodup : (c.states.map (·.id)).Nodup) (hs : p.state ∈ c.states)
    (hname : event ≠ "") (hroot : c.isRoot = false) (hleave : ¬ p.state.CanAlwaysLeave)
    (hblock : ¬ (isSynched event ∧ p.state.transitionsOn (some event) = [])) :
    ∃ e, v.enabled ((p.on (some event)).map (·.edge) ++ c.idle p event) = [e] ∧
      (e.IsIdle p.state.id ↔ (∀ t ∈ p.state.transitionsOn (some event), v.permits t = false) ∨
        ∃ t, (p.state.transitionsOn (some event)).find? v.permits = some t ∧
          t.DoesNothing p.state) := by
  cases hfirst : (p.on (some event)).find? fun k => v.permits k.transition with
  | none =>
    obtain ⟨henabled, hfalse⟩ := h.enabled_of_find?_eq_none v hname hfirst
    have hany : (p.on (some event)).any (fun k => v.permits k.transition) = false :=
      List.any_eq_false.2 (List.find?_eq_none.1 hfirst)
    have hne := h.idle_ne_nil v hname hroot hleave hblock hany
    have hlength : (c.idle p event).length = 1 :=
      Nat.le_antisymm length_idle_le (List.length_pos_iff.2 hne)
    obtain ⟨e, he⟩ := List.length_eq_one_iff.1 hlength
    have hmem : e ∈ c.idle p event := by simp [he]
    have hloop := h.isLoop_of_mem_idle hmem
    exact ⟨e, henabled.trans he, iff_of_true hloop.isIdle (.inl hfalse)⟩
  | some k =>
    obtain ⟨henabled, hfind⟩ := h.enabled_of_find?_eq_some v hname hfirst
    obtain ⟨r, hr⟩ :=
      h.clauses.compiles_of_mem (List.mem_of_mem_filter (List.mem_of_find?_eq_some hfirst))
    have htrue : v.permits k.transition = true := List.find?_some hfind
    refine ⟨k.edge, henabled, (hr.belongs.isIdle_iff hnodup hs).trans ⟨fun hnothing => ?_, ?_⟩⟩
    · exact .inr ⟨k.transition, hfind, hnothing⟩
    · rintro (hfalse | ⟨t, ht, hnothing⟩)
      · exact absurd (hfalse _ (List.mem_of_find?_eq_some hfind)) (by simp [htrue])
      · rwa [Option.some.inj (hfind.symm.trans ht)]

end Exclusion

/-- **Events are handled deterministically and never blocked.** The edges that receive an event in a
state are those of its transitions on the event and loops that ignore it. In every valuation at most
one of them is enabled, and of the edges of the transitions without an event at most one is. If the
event has a name, the enabled edge is that of the first transition whose condition is true, if there
is one. Unless the chart is a root, the state can always leave without an event, or automata
synchronise on the event and the state has no transition on it, one edge is enabled. It is idle
exactly if no condition is true or the first transition whose condition is true does nothing. -/
theorem compile_exclusive {a : Automaton} (h : (c.compile setting).Yields es a es')
    (hs : s ∈ c.states) {event : String} (hevent : c.Handles event) :
    ∃ own loops eventless : List Edge,
      a.edges.filter (receives s.id event) = own ++ loops ∧
      List.Forall₂ (c.Belongs setting s) (s.transitionsOn (some event)) own ∧
      (∀ e ∈ loops, IsLoop s.id e) ∧
      List.Forall₂ (c.Belongs setting s) (s.transitionsOn none) eventless ∧
      eventless.Sublist a.edges ∧
      ∀ v : Valuation,
        (v.enabled (own ++ loops)).length ≤ 1 ∧ (v.enabled eventless).length ≤ 1 ∧
        (event ≠ "" →
          (∀ t e, ((s.transitionsOn (some event)).zip own).find? (fun p => v.permits p.1) =
            some (t, e) → v.enabled (own ++ loops) = [e]) ∧
          (c.isRoot = false → ¬ s.CanAlwaysLeave →
            ¬ (isSynched event ∧ s.transitionsOn (some event) = []) →
            ∃ e, v.enabled (own ++ loops) = [e] ∧
              (e.IsIdle s.id ↔ (∀ t ∈ s.transitionsOn (some event), v.permits t = false) ∨
                ∃ t, (s.transitionsOn (some event)).find? v.permits = some t ∧
                  t.DoesNothing s))) := by
  have hnodup := (compile_parts h).2.2.1
  obtain ⟨p, rfl, hp, hsub, hedges⟩ := compile_receiving h hs hevent
  have heventless : ((p.on none).map (·.edge)).Sublist p.edges :=
    (List.filter_sublist.map _).trans (map_edge_sublist p.clauses)
  refine ⟨_, _, (p.on none).map (·.edge), hedges, hp.belongs _,
    fun e he => hp.isLoop_of_mem_idle he, hp.belongs none, heventless.trans hsub, fun v => ?_⟩
  refine ⟨hp.length_enabled_le v, hp.length_enabled_on_le v none, fun hname => ⟨?_, ?_⟩⟩
  · rw [hp.find?_zip]
    intro t e he
    obtain ⟨k, hk, heq⟩ := Option.map_eq_some_iff.1 he
    obtain ⟨-, rfl⟩ := Prod.mk.inj heq
    exact (hp.enabled_of_find?_eq_some v hname hk).1
  · exact hp.exists_enabled v hnodup hs hname

/-- A state with two conditional transitions on an event, of which only the second leads back to it
without a step, handles or ignores the event in every valuation. -/
theorem compile_exclusive_of_two_conditions :
    let t₁ : Transition := { event := some "go", cond := some "x", goal := .single "busy" none }
    let t₂ : Transition :=
      { event := some "go", cond := some "_event.data.y", goal := .single "idle" none }
    let idle : State := { id := "idle", transitions := some [t₁, t₂] }
    let c : Chart := { name := "robot", initial := "idle", states := [idle, { id := "busy" }] }
    let setting : Setting := { capacity := .whole 3, globals := fun _ => none, constants := [] }
    idle ∈ c.states ∧ c.Handles "go" ∧ ∃ a es' own loops,
      (c.compile setting).Yields {} a es' ∧
      a.edges.filter (receives "idle" "go") = own ++ loops ∧
      List.Forall₂ (c.Belongs setting idle) [t₁, t₂] own ∧
      ∀ v : Valuation, ∃ e, v.enabled (own ++ loops) = [e] ∧
        (e.IsIdle "idle" ↔ v.permits t₁ = false) := by
  intro t₁ t₂ idle c setting
  have hmem : idle ∈ c.states := by simp [c]
  have hevent : c.Handles "go" := ⟨idle, hmem, by simp [State.transitionsOn, idle, t₁]⟩
  obtain ⟨a, es', h⟩ := Build.exists_yields (x := c.compile setting) (s := {}) (by decide +kernel)
  obtain ⟨own, loops, _, hedges, hown, -, -, -, hv⟩ := compile_exclusive h hmem hevent
  refine ⟨hmem, hevent, a, es', own, loops, h, hedges, hown, fun v => ?_⟩
  have hstay : ¬ idle.CanAlwaysLeave := by
    simp [State.CanAlwaysLeave, State.transitionsOn, idle, t₁, t₂]
  obtain ⟨e, henabled, hidle⟩ :=
    ((hv v).2.2 (by decide)).2 (by decide) hstay (by simp [State.transitionsOn, idle, t₁])
  refine ⟨e, henabled, hidle.trans ?_⟩
  have hon : idle.transitionsOn (some "go") = [t₁, t₂] := rfl
  have hfirst : ¬ t₁.DoesNothing idle := fun h => by
    simpa [idle] using (h.targets { target := "busy" } (by simp [t₁, Goal.targets])).1
  have hsecond : t₂.DoesNothing idle := ⟨by simp [t₂, Goal.targets, idle], rfl, rfl⟩
  rw [hon]
  cases h₁ : v.permits t₁ <;> cases h₂ : v.permits t₂ <;> simp [h₁, h₂, hfirst, hsecond]

/-- **An idle edge need not be a loop that ignores the event**: a transition from a state to itself
without steps has one, and it is enabled because its condition is true. And an event of the empty
name is taken for no event: a transition on it is not enabled after one without an event whose
condition is true, and there are no loops for it. -/
theorem compile_idle_of_transition :
    let t : Transition := { event := some "go", goal := .single "idle" none }
    let idle : State := { id := "idle", transitions := some [t] }
    let c : Chart := { name := "robot", initial := "idle", states := [idle] }
    let u₁ : Transition := { cond := some "!!true", goal := .single "idle" none }
    let u₂ : Transition := { event := some "", cond := some "!!true", goal := .single "idle" none }
    let blind : State := { id := "idle", transitions := some [u₁, u₂] }
    let d : Chart := { name := "robot", initial := "idle", states := [blind] }
    let setting : Setting := { capacity := .whole 3, globals := fun _ => none, constants := [] }
    (c.Handles "go" ∧ c.isRoot = false ∧ ¬ idle.CanAlwaysLeave ∧ isSynched "go" = false ∧
      ∃ a es', (c.compile setting).Yields {} a es' ∧ ∀ v : Valuation, v.permits t = true ∧
        ∃ e, v.enabled (a.edges.filter (receives "idle" "go")) = [e] ∧ e.IsIdle "idle") ∧
    d.Handles "" ∧ d.isRoot = false ∧ ¬ blind.CanAlwaysLeave ∧ isSynched "" = false ∧
      ∃ a es', (d.compile setting).Yields {} a es' ∧ ∀ v : Valuation, v.permits u₂ = true ∧
        v.enabled (a.edges.filter (receives "idle" "")) = [] := by
  intro t idle c u₁ u₂ blind d setting
  have hgo : c.Handles "go" := ⟨idle, by simp [c], by simp [State.transitionsOn, idle, t]⟩
  have hstay : ¬ idle.CanAlwaysLeave := by simp [State.CanAlwaysLeave, State.transitionsOn, idle, t]
  have hempty : d.Handles "" := ⟨blind, by simp [d], by simp [State.transitionsOn, blind, u₁, u₂]⟩
  have hblind : ¬ blind.CanAlwaysLeave := by
    simp [State.CanAlwaysLeave, State.transitionsOn, blind, u₁, u₂]
  have hyields {c : Chart} {f : Automaton → Bool}
      (h : ((c.compile setting).run.run {}).1.toOption.any f = true) :
      ∃ a es', (c.compile setting).Yields {} a es' ∧ f a = true := by
    obtain ⟨a, ha, hf⟩ := Result.exists_of_any h
    exact ⟨a, _, Prod.ext ha rfl, hf⟩
  refine ⟨⟨hgo, by decide, hstay, by decide, ?_⟩, hempty, by decide, hblind, by decide, ?_⟩
  · let loop : Edge := {
      location := "idle", action := some (receiveAction "go"), guard := some (.bool true)
      destinations := [{ location := some "idle" }] }
    obtain ⟨a, es', h, hedges⟩ := @hyields c
      (fun a => decide (a.edges.filter (receives "idle" "go") = [loop])) (by decide +kernel)
    refine ⟨a, es', h, fun v => ⟨rfl, loop, ?_, rfl, by simp [loop], by simp [loop]⟩⟩
    simp [of_decide_eq_true hedges, loop, Valuation.enabled, Valuation.admits]
  · let condition := (Expr.bool true).not.not
    have hparse : Source.parse "!!true" = .ok condition :=
      Result.eq_ok_of_toOption (by decide +kernel)
    obtain ⟨a, es', h, hguards⟩ := @hyields d (fun a => decide
      ((a.edges.filter (receives "idle" "")).map (·.guard) =
        [some (condition.and condition.not)])) (by decide +kernel)
    refine ⟨a, es', h, fun v => ⟨by simp [Valuation.permits, u₂, hparse, condition], ?_⟩⟩
    rw [Valuation.enabled, List.filter_eq_nil_iff]
    intro e he
    have hguard : e.guard = some (condition.and condition.not) := by
      simpa [of_decide_eq_true hguards] using List.mem_map_of_mem (f := (·.guard)) he
    simp [hguard, condition]

end Chart

end ChartNet
