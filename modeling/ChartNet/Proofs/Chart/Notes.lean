import ChartNet.Proofs.Body.Notes
import ChartNet.Proofs.Chart.Sites

/-!
# Notes of charts

What a chart registers, in order: state by state and transition by transition, that its automaton
receives the event of the transition and then the notes of the bodies at its sites; last, the notes
of the start. All of it can be listed without compiling the chart, and a chart that is compiled
registers exactly that (`Chart.noteAll_of_compile`), with the variables that its automaton has in
the end.
-/

namespace ChartNet

/-- The **notes** of the body at a site. -/
def Site.notes (p : Site) : List Note :=
  notesOf p.event (sendsAmong p.steps)

namespace Chart

/-- The notes of a transition. -/
def transitionNotes (c : Chart) (constants : Constants) (s : State) (t : Transition) : List Note :=
  (t.event.toList.map fun event => .receive event (transitionAction s.id t)) ++
    (c.transitionSites constants s t).flatMap (·.notes)

/-- The **notes** of a chart. -/
def notes (c : Chart) (constants : Constants) : List Note :=
  (c.states.flatMap fun s => (s.transitions.getD []).flatMap (c.transitionNotes constants s)) ++
    c.startSites.flatMap (·.notes)

/-- A chart that notes a value of an event notes that it sends the event. -/
theorem send_mem_notes {c : Chart} {constants : Constants} {reads : Option String} {event : String}
    {p : Param} (h : .value reads event p ∈ c.notes constants) :
    .send event ∈ c.notes constants := by
  have hsites : ∀ sites : List Site, .value reads event p ∈ sites.flatMap (·.notes) →
      .send event ∈ sites.flatMap (·.notes) := by
    intro sites hmem
    obtain ⟨q, hq, hmem⟩ := List.mem_flatMap.1 hmem
    exact List.mem_flatMap.2 ⟨q, hq, send_mem_notesOf hmem⟩
  rcases List.mem_append.1 h with h | h
  · refine List.mem_append_left _ ?_
    obtain ⟨s, hs, h⟩ := List.mem_flatMap.1 h
    obtain ⟨t, ht, h⟩ := List.mem_flatMap.1 h
    refine List.mem_flatMap.2 ⟨s, hs, List.mem_flatMap.2 ⟨t, ht, ?_⟩⟩
    rcases List.mem_append.1 h with h | h
    · simp at h
    · exact List.mem_append_right _ (hsites _ h)
  · exact List.mem_append_right _ (hsites _ h)

variable {c : Chart} {setting : Setting} {s : State} {es es' : Events} {a a' : Automaton}

/-- Only the name and the variables of an automaton count for the surroundings of its bodies. -/
theorem scope_congr (hname : a'.name = a.name) (hvars : a'.vars = a.vars) (event : Option String) :
    setting.scope a' event = setting.scope a event := by
  unfold Setting.scope Automaton.getVariable?
  rw [hname, hvars]

/-- Bodies register the notes of their sites. -/
theorem noteAll_of_bodies {t : Transition} (ways : List Way) {total : Float} {found : List Body}
    (h : (bodies (setting.scope a t.event) s t total ways).Yields es found es') :
    ((setting.scope a).noteAll ((sitesFrom s t total ways).flatMap (·.notes))).Yields es
    () es' := by
  induction ways generalizing total es found with
  | nil =>
    obtain ⟨-, rfl⟩ := yields_bodies_nil.1 h
    exact BodyScope.yields_noteAll_nil.2 rfl
  | cons w ws ih =>
    obtain ⟨body, es₁, others, hbody, hothers, -⟩ := yields_bodies_cons.1 h
    rw [sitesFrom, List.flatMap_cons, BodyScope.yields_noteAll_append]
    refine ⟨es₁, ?_, ih hothers⟩
    rw [← BodyScope.noteAll_reading _ t.event]
    exact BodyScope.noteAll_of_steps _ hbody

/-- A transition registers its notes, and leaves the surroundings of bodies alone. -/
theorem noteAll_of_transition {r : StateRecord} {t : Transition} {condition : Option Expr}
    (h : (c.transition setting a r s t).Yields es (a', condition) es') :
    setting.scope a' = setting.scope a ∧
      ((setting.scope a).noteAll (c.transitionNotes setting.constants s t)).Yields es () es' := by
  obtain ⟨ways, found, hways, -, hfound, rfl⟩ := yields_transition.1 h
  refine ⟨scope_congr (by simp) (by simp) none, BodyScope.yields_noteAll_append.2
    ⟨received es a.name s.id t, ?_, ?_⟩⟩
  · unfold received
    cases t.event with
    | none => exact BodyScope.yields_noteAll_nil.2 rfl
    | some event =>
      exact BodyScope.yields_noteAll_cons.2
        ⟨_, Build.yields_modify.2 rfl, BodyScope.yields_noteAll_nil.2 rfl⟩
  · rw [transitionSites, hways]
    exact noteAll_of_bodies ways hfound

theorem noteAll_of_transitions (ts : List Transition) {position : Nat} {a a' : Automaton}
    {r r' : StateRecord} (h : (c.transitions setting s position a r ts).Yields es (a', r') es') :
    setting.scope a' = setting.scope a ∧
      ((setting.scope a).noteAll (ts.flatMap (c.transitionNotes setting.constants s))).Yields es ()
        es' := by
  induction ts generalizing position a r es with
  | nil =>
    obtain ⟨⟨rfl, -⟩, rfl⟩ := yields_transitions_nil.1 h
    exact ⟨rfl, BodyScope.yields_noteAll_nil.2 rfl⟩
  | cons t ts ih =>
    obtain ⟨-, a₁, condition, es₁, hfirst, hrest⟩ := yields_transitions_cons.1 h
    obtain ⟨hscope, hnotes⟩ := noteAll_of_transition hfirst
    obtain ⟨hscope', hnotes'⟩ := ih hrest
    rw [hscope] at hscope' hnotes'
    exact ⟨hscope', BodyScope.yields_noteAll_append.2 ⟨es₁, hnotes, hnotes'⟩⟩

theorem noteAll_of_allStates (ss : List State) {a a' : Automaton} {rs : List StateRecord}
    (h : (c.allStates setting a ss).Yields es (a', rs) es') :
    setting.scope a' = setting.scope a ∧
      ((setting.scope a).noteAll (ss.flatMap fun s =>
        (s.transitions.getD []).flatMap (c.transitionNotes setting.constants s))).Yields es
          () es' := by
  induction ss generalizing a es rs with
  | nil =>
    obtain ⟨⟨rfl, -⟩, rfl⟩ := yields_allStates_nil.1 h
    exact ⟨rfl, BodyScope.yields_noteAll_nil.2 rfl⟩
  | cons s ss ih =>
    obtain ⟨a₁, r, es₁, rs', hfirst, hrest, -⟩ := yields_allStates_cons.1 h
    obtain ⟨hscope, hnotes⟩ := noteAll_of_transitions _ (yields_stateEdges.1 hfirst).1
    have hlocated : setting.scope (a.addLocation s.id) = setting.scope a := scope_congr rfl rfl none
    rw [hlocated] at hscope hnotes
    obtain ⟨hscope', hnotes'⟩ := ih hrest
    rw [hscope] at hscope' hnotes'
    exact ⟨hscope', BodyScope.yields_noteAll_append.2 ⟨es₁, hnotes, hnotes'⟩⟩

theorem noteAll_of_start (h : (c.start setting a).Yields es a' es') :
    setting.scope a' = setting.scope a ∧
      ((setting.scope a).noteAll (c.startSites.flatMap (·.notes))).Yields es () es' := by
  obtain ⟨first, hfirst, ⟨hentry, rfl, rfl⟩ | ⟨hentry, body, hbody, rfl⟩⟩ := yields_start.1 h
  all_goals rw [startSites_of_state hfirst]
  · exact ⟨scope_congr rfl rfl none, by simp [hentry, BodyScope.yields_noteAll_nil]⟩
  · have hsteps : (first.onEntry.getD []).isEmpty = false := by simpa using hentry
    refine ⟨scope_congr (by simp) (by simp) none, ?_⟩
    simp only [hsteps, Bool.false_eq_true, if_false, List.flatMap_cons, List.flatMap_nil,
      List.append_nil]
    exact BodyScope.noteAll_of_steps _ hbody

/-- **A chart that is compiled registers its notes**, in order, in the surroundings of its
automaton. -/
theorem noteAll_of_compile (h : (c.compile setting).Yields es a es') :
    ((setting.scope a).noteAll (c.notes setting.constants)).Yields es () es' := by
  obtain ⟨-, -, a₀, a₁, records, es₁, -, hstates, hstart⟩ := yields_compile.1 h
  obtain ⟨hscope, hnotes⟩ := noteAll_of_allStates _ hstates
  obtain ⟨hscope', hnotes'⟩ := noteAll_of_start hstart
  have hloops : setting.scope (if c.isRoot then a₁ else a₁.addEdges (loops records)) =
      setting.scope a₁ := by
    split
    · rfl
    · exact scope_congr (by simp) (by simp) none
  rw [hloops] at hscope' hnotes'
  rw [hscope] at hscope' hnotes'
  rw [hscope']
  exact BodyScope.yields_noteAll_append.2 ⟨es₁, hnotes, hnotes'⟩

end Chart

end ChartNet
