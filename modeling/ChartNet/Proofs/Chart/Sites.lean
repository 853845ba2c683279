import ChartNet.Proofs.Chart.Handling

/-!
# Sites of bodies

A chart has a body at each of its **sites**: one for each target of each transition, and one at the
start if the initial state has steps on entry. The sites of a chart can be listed without compiling
it, and so can everything that a body depends on besides its surroundings: the locations between
which it runs, the parts of its digest and its steps.

`Chart.compile_placed` says that an accepted chart has a compiled body at each of its sites, in
order, and that an edge of the automaton either leaves from a state and sends nothing or belongs to
the body at some site.
-/

namespace ChartNet

/-- A **site** of a body in a chart: a target of a transition, with the probability of the targets
up to it, or the start at the initial state. -/
inductive Site where
  | target (s : State) (t : Transition) (w : Chart.Way) (total : Float)
  | start (first : State)

namespace Site

/-- The location from which a body leaves. -/
def source : Site → String
  | target s _ _ _ => s.id
  | start first => first.id ++ "-first-exec"

/-- The state to which a body leads. -/
def goal : Site → String
  | target _ _ w _ => w.target.target
  | start first => first.id

/-- The **parts** of the digest of a body. -/
def parts : Site → List Json
  | target s t w total =>
    [.str s.id, .str w.target.target, .str (Chart.transitionAction s.id t),
      Chart.conditionPart t.cond, .str (Number.text total)]
  | start first => [.str (first.id ++ "-first-exec"), .str first.id, .str "onentry"]

/-- The path of a body. -/
def path (p : Site) : BodyPath where
  source := p.source
  target := p.goal
  digest := digest p.parts

/-- The event whose data a body reads. -/
def event : Site → Option String
  | target _ t _ _ => t.event
  | start _ => none

/-- The probability of the edge on which a body starts. -/
def probability : Site → Expr
  | target _ _ w _ => .real w.probability
  | start _ => .real 1

/-- The **steps** of a body. -/
def steps : Site → List Step
  | target s _ w _ => s.onExit.getD [] ++ w.target.body.getD [] ++ w.state.onEntry.getD []
  | start first => first.onEntry.getD []

/-- A body is **compiled** at a site. -/
def Compiles (setting : Setting) (p : Site) (b : Body) : Prop :=
  ∃ (a : Automaton) (es es' : Events),
    ((setting.scope a p.event).compile p.path p.probability p.steps).Yields es b es'

/-- What a body **adds** to the automaton: its edges and locations. The start has a location and an
edge of its own, where a transition starts on the edge from its state. -/
def fragment (p : Site) (b : Body) : Fragment :=
  match p with
  | target _ _ _ _ => { edges := b.edges, locations := b.locations }
  | start _ =>
    { edges := (b.startingWith p.path.source p.path.action none).edges
      locations := p.path.source :: b.locations }

end Site

namespace Chart

/-- The sites of the targets of a transition; `total` is the probability of the ones before. -/
def sitesFrom (s : State) (t : Transition) (total : Float) : List Way → List Site
  | [] => []
  | w :: ws => .target s t w (total + w.probability) :: sitesFrom s t (total + w.probability) ws

/-- The sites of a transition. -/
def transitionSites (c : Chart) (constants : Constants) (s : State) (t : Transition) : List Site :=
  match c.ways constants t with
  | .ok ways => sitesFrom s t 0 ways
  | .error _ => []

/-- The site at the start, if the initial state has steps on entry. -/
def startSites (c : Chart) : List Site :=
  match c.state? c.initial with
  | some first => if (first.onEntry.getD []).isEmpty then [] else [.start first]
  | none => []

theorem startSites_of_state {c : Chart} {first : State} (h : c.state c.initial = .ok first) :
    c.startSites = if (first.onEntry.getD []).isEmpty then [] else [.start first] := by
  unfold state at h
  unfold startSites
  cases hfind : c.state? c.initial with
  | none => simp [hfind, failModel] at h
  | some s =>
    simp only [hfind, Except.ok.injEq] at h
    rw [h]

/-- The **sites** of a chart. -/
def sites (c : Chart) (constants : Constants) : List Site :=
  (c.states.flatMap fun s => (s.transitions.getD []).flatMap (c.transitionSites constants s)) ++
    c.startSites

/-! ### Growing automata -/

/-- An automaton **grows** by the bodies at some sites: it keeps what it has, gets what they add,
and any other new edge leaves from a state and sends nothing. -/
structure Grows (c : Chart) (setting : Setting) (a : Automaton) (placed : List (Site × Body))
    (a' : Automaton) : Prop where
  compiled : ∀ p ∈ placed, p.1.Compiles setting p.2
  keptEdges : ∀ e ∈ a.edges, e ∈ a'.edges
  keptLocations : ∀ l ∈ a.locations, l ∈ a'.locations
  edges : ∀ p ∈ placed, ∀ e ∈ (p.1.fragment p.2).edges, e ∈ a'.edges
  locations : ∀ p ∈ placed, ∀ l ∈ (p.1.fragment p.2).locations, l ∈ a'.locations
  origin : ∀ e ∈ a'.edges, e ∈ a.edges ∨
    (e.location ∈ c.states.map (·.id) ∧ ∀ event, e.action ≠ some (sendAction event)) ∨
    ∃ p ∈ placed, e ∈ (p.1.fragment p.2).edges

variable {c : Chart} {setting : Setting} {s : State} {es es' : Events} {a a' : Automaton}

theorem Grows.refl (c : Chart) (setting : Setting) (a : Automaton) : c.Grows setting a [] a where
  compiled := by simp
  keptEdges _ he := he
  keptLocations _ hl := hl
  edges := by simp
  locations := by simp
  origin _ he := .inl he

theorem Grows.trans {a₁ : Automaton} {placed placed' : List (Site × Body)}
    (h : c.Grows setting a placed a₁) (h' : c.Grows setting a₁ placed' a') :
    c.Grows setting a (placed ++ placed') a' where
  compiled := List.forall_mem_append.2 ⟨h.compiled, h'.compiled⟩
  keptEdges e he := h'.keptEdges e (h.keptEdges e he)
  keptLocations l hl := h'.keptLocations l (h.keptLocations l hl)
  edges := List.forall_mem_append.2
    ⟨fun p hp e he => h'.keptEdges e (h.edges p hp e he), h'.edges⟩
  locations := List.forall_mem_append.2
    ⟨fun p hp l hl => h'.keptLocations l (h.locations p hp l hl), h'.locations⟩
  origin e he := by
    rcases h'.origin e he with he | hstate | ⟨p, hp, he⟩
    · rcases h.origin e he with he | hstate | ⟨p, hp, he⟩
      · exact .inl he
      · exact .inr (.inl hstate)
      · exact .inr (.inr ⟨p, List.mem_append_left _ hp, he⟩)
    · exact .inr (.inl hstate)
    · exact .inr (.inr ⟨p, List.mem_append_right _ hp, he⟩)

/-- The bodies of a transition are compiled at its sites. -/
theorem bodies_placed {a : Automaton} {t : Transition} (ways : List Way) {total : Float}
    {found : List Body} (h : (bodies (setting.scope a t.event) s t total ways).Yields es
      found es') :
    ∃ placed : List (Site × Body), placed.map (·.1) = sitesFrom s t total ways ∧
      (∀ p ∈ placed, p.1.Compiles setting p.2) ∧
      found.flatMap (·.edges) = placed.flatMap (fun p => (p.1.fragment p.2).edges) ∧
      found.flatMap (·.locations) = placed.flatMap (fun p => (p.1.fragment p.2).locations) := by
  induction ways generalizing total es es' found with
  | nil =>
    obtain ⟨rfl, rfl⟩ := yields_bodies_nil.1 h
    exact ⟨[], rfl, by simp, rfl, rfl⟩
  | cons w ws ih =>
    obtain ⟨body, es₁, others, hbody, hothers, rfl⟩ := yields_bodies_cons.1 h
    obtain ⟨placed, hsites, hcompiled, hedges, hlocations⟩ := ih hothers
    refine ⟨(.target s t w (total + w.probability), body) :: placed, ?_, ?_, ?_, ?_⟩
    · rw [List.map_cons, hsites, sitesFrom]
    · exact List.forall_mem_cons.2 ⟨⟨a, es, es₁, hbody⟩, hcompiled⟩
    · rw [List.flatMap_cons, List.flatMap_cons, hedges]
      rfl
    · rw [List.flatMap_cons, List.flatMap_cons, hlocations]
      rfl

/-- The action of a transition sends nothing. -/
theorem transitionAction_ne_sendAction (id : String) (t : Transition) (event : String) :
    transitionAction id t ≠ sendAction event := by
  intro h
  cases hevent : t.event with
  | none => exact not_isDelivery_transitionAction hevent ⟨event, .inl h⟩
  | some other =>
    rw [transitionAction_eq_iff.2 hevent] at h
    exact sendAction_ne_receiveAction event other h.symm

/-- A transition grows an automaton by the bodies at its sites. -/
theorem transition_grows {r : StateRecord} {t : Transition} {condition : Option Expr}
    (hs : s ∈ c.states) (h : (c.transition setting a r s t).Yields es (a', condition) es') :
    ∃ placed, placed.map (·.1) = c.transitionSites setting.constants s t ∧
      c.Grows setting a placed a' := by
  obtain ⟨ways, found, hways, -, hfound, rfl⟩ := yields_transition.1 h
  obtain ⟨placed, hsites, hcompiled, hedges, hlocations⟩ := bodies_placed ways hfound
  refine ⟨placed, by rw [hsites, transitionSites, hways], ?_⟩
  rw [hedges, hlocations]
  constructor
  · exact hcompiled
  · exact fun e he => by simp [he]
  · exact fun l hl =>
      Automaton.mem_locations_addLocations.2 (.inl (Automaton.mem_locations_addEdges hl))
  · intro p hp e he
    have hmem : e ∈ placed.flatMap fun p => (p.1.fragment p.2).edges :=
      List.mem_flatMap.2 ⟨p, hp, he⟩
    simp [hmem]
  · intro p hp l hl
    exact Automaton.mem_locations_addLocations.2 (.inr (List.mem_flatMap.2 ⟨p, hp, hl⟩))
  · intro e he
    simp only [Automaton.edges_addLocations, Automaton.edges_addEdges, List.mem_append,
      List.mem_cons, List.mem_flatMap] at he
    rcases he with he | rfl | ⟨p, hp, he⟩
    · exact .inl he
    · refine .inr (.inl ⟨List.mem_map_of_mem hs, fun event haction => ?_⟩)
      exact transitionAction_ne_sendAction _ _ event (Option.some.inj haction)
    · exact .inr (.inr ⟨p, hp, he⟩)

/-- Adding locations adds no body. -/
theorem grows_of_edges_eq (c : Chart) (setting : Setting) (hedges : a'.edges = a.edges)
    (hlocations : ∀ l ∈ a.locations, l ∈ a'.locations) : c.Grows setting a [] a' where
  compiled := by simp
  keptEdges _ he := hedges ▸ he
  keptLocations := hlocations
  edges := by simp
  locations := by simp
  origin _ he := .inl (hedges ▸ he)

theorem grows_addLocation (c : Chart) (setting : Setting) (a : Automaton) (l : String) :
    c.Grows setting a [] (a.addLocation l) :=
  grows_of_edges_eq c setting rfl fun _ hl => Automaton.mem_locations_addLocation.2 (.inr hl)

theorem grows_setInitial (c : Chart) (setting : Setting) (a : Automaton) (l : String) :
    c.Grows setting a [] (a.setInitial l) :=
  grows_of_edges_eq c setting rfl fun _ hl => Automaton.mem_locations_addLocation.2 (.inr hl)

/-- Nor does adding edges that leave from states and send nothing. -/
theorem grows_addEdges {a : Automaton} {edges : List Edge} (h : ∀ e ∈ edges,
      e.location ∈ c.states.map (·.id) ∧ ∀ event, e.action ≠ some (sendAction event)) :
    c.Grows setting a [] (a.addEdges edges) where
  compiled := by simp
  keptEdges e he := by simp [he]
  keptLocations _ hl := Automaton.mem_locations_addEdges hl
  edges := by simp
  locations := by simp
  origin e he := by
    rw [Automaton.edges_addEdges, List.mem_append] at he
    exact he.imp_right fun he => .inl (h e he)

/-- The transitions of a state grow an automaton by the bodies at their sites. -/
theorem transitions_grows (hs : s ∈ c.states) (ts : List Transition) {position : Nat}
    {a a' : Automaton} {r r' : StateRecord}
    (h : (c.transitions setting s position a r ts).Yields es (a', r') es') :
    ∃ placed, placed.map (·.1) = ts.flatMap (c.transitionSites setting.constants s) ∧
      c.Grows setting a placed a' ∧ r'.id = r.id := by
  induction ts generalizing position a r es with
  | nil =>
    obtain ⟨⟨rfl, rfl⟩, -⟩ := yields_transitions_nil.1 h
    exact ⟨[], rfl, .refl c setting a', rfl⟩
  | cons t ts ih =>
    obtain ⟨-, a₁, condition, es₁, hfirst, hrest⟩ := yields_transitions_cons.1 h
    obtain ⟨placed, hsites, hgrows⟩ := transition_grows hs hfirst
    obtain ⟨placed', hsites', hgrows', hid⟩ := ih hrest
    refine ⟨placed ++ placed', ?_, hgrows.trans hgrows', hid⟩
    rw [List.map_append, hsites, hsites', List.flatMap_cons]

/-- All states grow an automaton by the bodies at the sites of their transitions. -/
theorem allStates_grows (ss : List State) (hss : ∀ s ∈ ss, s ∈ c.states) {a a' : Automaton}
    {rs : List StateRecord} (h : (c.allStates setting a ss).Yields es (a', rs) es') :
    ∃ placed, placed.map (·.1) = (ss.flatMap fun s =>
        (s.transitions.getD []).flatMap (c.transitionSites setting.constants s)) ∧
      c.Grows setting a placed a' ∧ ∀ r ∈ rs, r.id ∈ c.states.map (·.id) := by
  induction ss generalizing a es rs with
  | nil =>
    obtain ⟨⟨rfl, rfl⟩, -⟩ := yields_allStates_nil.1 h
    exact ⟨[], rfl, .refl c setting a', by simp⟩
  | cons s ss ih =>
    rw [List.forall_mem_cons] at hss
    obtain ⟨a₁, r, es₁, rs', hfirst, hrest, rfl⟩ := yields_allStates_cons.1 h
    obtain ⟨placed, hsites, hgrows, hid⟩ := transitions_grows hss.1 _ (yields_stateEdges.1 hfirst).1
    obtain ⟨placed', hsites', hgrows', hids⟩ := ih hss.2 hrest
    refine ⟨placed ++ placed', ?_, ((grows_addLocation c setting a s.id).trans hgrows).trans
      hgrows', List.forall_mem_cons.2 ⟨hid ▸ List.mem_map_of_mem hss.1, hids⟩⟩
    rw [List.map_append, hsites, hsites', List.flatMap_cons]

/-- Loops leave from states and send nothing. -/
theorem loops_spec {records : List StateRecord} (h : ∀ r ∈ records, r.id ∈ c.states.map (·.id)) :
    ∀ e ∈ loops records,
      e.location ∈ c.states.map (·.id) ∧ ∀ event, e.action ≠ some (sendAction event) := by
  intro e he
  obtain ⟨r, hr, handled, -, hlocation, haction, -⟩ := exists_of_mem_loops he
  refine ⟨hlocation ▸ h r hr, fun event hsend => ?_⟩
  rw [haction] at hsend
  exact sendAction_ne_receiveAction event handled (Option.some.inj hsend).symm

/-- The start grows an automaton by the body at its site. -/
theorem start_grows (h : (c.start setting a).Yields es a' es') :
    ∃ placed, placed.map (·.1) = c.startSites ∧ c.Grows setting a placed a' := by
  obtain ⟨first, hfirst, ⟨hentry, rfl, -⟩ | ⟨hentry, body, hbody, rfl⟩⟩ := yields_start.1 h
  · refine ⟨[], by simp [startSites_of_state hfirst, hentry], ?_⟩
    exact grows_setInitial c setting a first.id
  · refine ⟨[(.start first, body)], by simp [startSites_of_state hfirst, hentry], ?_⟩
    · constructor
      · intro p hp
        obtain rfl := List.mem_singleton.1 hp
        exact ⟨a, _, _, hbody⟩
      · exact fun e he => by simp [he]
      · exact fun l hl => Automaton.mem_locations_addLocations.2 (.inl
          (Automaton.mem_locations_addEdges (Automaton.mem_locations_addLocation.2 (.inr hl))))
      · intro p hp e he
        obtain rfl := List.mem_singleton.1 hp
        rw [Automaton.edges_addLocations, Automaton.edges_addEdges]
        exact List.mem_append_right _ he
      · intro p hp l hl
        obtain rfl := List.mem_singleton.1 hp
        rcases List.mem_cons.1 hl with rfl | hl
        · exact Automaton.mem_locations_addLocations.2 (.inl
            (Automaton.mem_locations_addEdges (Automaton.mem_locations_addLocation.2 (.inl rfl))))
        · exact Automaton.mem_locations_addLocations.2 (.inr hl)
      · intro e he
        simp only [Automaton.edges_addLocations, Automaton.edges_addEdges, List.mem_append] at he
        exact he.imp_right fun he => .inr ⟨_, List.mem_singleton_self _, he⟩

/-- **Accepted charts have a compiled body at each of their sites**, and nothing else but edges that
leave from states and send nothing. -/
theorem compile_placed (h : (c.compile setting).Yields es a es') :
    ∃ placed, placed.map (·.1) = c.sites setting.constants ∧
      c.Grows setting { name := c.name } placed a := by
  obtain ⟨-, -, a₀, a₁, records, es₁, hdata, hstates, hstart⟩ := yields_compile.1 h
  obtain ⟨placed, hsites, hgrows, hids⟩ := allStates_grows c.states (fun s hs => hs) hstates
  obtain ⟨placed', hsites', hgrows'⟩ := start_grows hstart
  have hempty : c.Grows setting { name := c.name } [] a₀ :=
    grows_of_edges_eq c setting (edges_of_declareData _ hdata).1 (by simp)
  have hloops : c.Grows setting a₁ [] (if c.isRoot then a₁ else a₁.addEdges (loops records)) := by
    split
    · exact .refl c setting a₁
    · exact grows_addEdges (loops_spec hids)
  refine ⟨placed ++ placed', by rw [List.map_append, hsites, hsites', sites], ?_⟩
  simpa using ((hempty.trans hgrows).trans hloops).trans hgrows'

end Chart

end ChartNet
