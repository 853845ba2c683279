import ChartNet.Descriptor.Compile
import ChartNet.Proofs.Chart.Handling
import ChartNet.Proofs.Network.Vectors

/-!
# Charted models

While charts are compiled every edge that sends or receives an event is **registered** with the
event, and only automata of charts are. A model is `Charted` by a registry if this is so; adding
charts keeps it. The parts of a compilation that only declare variables, constants and properties
leave the automata alone (`Keeps`).
-/

namespace ChartNet

/-! ### Registered edges -/

/-- The actions of roles are different for different roles and events. -/
theorem Role.action_inj {role role' : Role} {event event' : String}
    (h : role.action event = role'.action event') : role = role' ∧ event = event' := by
  cases role <;> cases role'
  · exact ⟨rfl, sendAction_injective h⟩
  · exact absurd h (sendAction_ne_receiveAction _ _)
  · exact absurd h.symm (sendAction_ne_receiveAction _ _)
  · exact ⟨rfl, receiveAction_injective h⟩

theorem Role.isDelivery (role : Role) (event : String) : IsDelivery (role.action event) := by
  cases role
  · exact ⟨event, .inl rfl⟩
  · exact ⟨event, .inr rfl⟩

/-- What delivers an event does so in one of the roles. -/
theorem IsDelivery.exists_role {action : String} (h : IsDelivery action) :
    ∃ role event, action = Role.action event role := by
  obtain ⟨event, h | h⟩ := h
  · exact ⟨.sender, event, h⟩
  · exact ⟨.receiver, event, h⟩

/-- An edge of an automaton is **registered**: what it delivers knows of the automaton. -/
def Edge.Registered (es : Events) (automaton : String) (e : Edge) : Prop :=
  ∀ role event, e.action = some (Role.action event role) → es.Registers role event automaton

theorem Edge.SendsOrQuiet.registered {es : Events} {automaton : String} {e : Edge}
    (h : e.SendsOrQuiet es automaton) : e.Registered es automaton := by
  intro role event haction
  obtain ⟨action, haction', hcase⟩ := h
  obtain rfl := Option.some.inj (haction'.symm.trans haction)
  rcases hcase with ⟨sent, hsent, hregistered⟩ | hquiet
  · have hrole : Role.action event role = Role.action sent .sender := hsent
    obtain ⟨rfl, rfl⟩ := Role.action_inj hrole
    exact hregistered
  · exact absurd (role.isDelivery event) hquiet

namespace Chart

variable {c : Chart} {setting : Setting} {es es' : Events}

/-- The events of a record are those of transitions, so the automaton receives them. -/
private theorem registers_of_mem_events {p : StatePart} {automaton event : String}
    (h : c.IsPart setting automaton es p) (hevent : event ∈ p.record.events) :
    es.Registers .receiver event automaton := by
  obtain ⟨hname, condition, hclaim⟩ := StateRecord.mem_events.1 hevent
  rw [h.clauses.claims_eq, List.nil_append] at hclaim
  obtain ⟨k, hk, heq⟩ := List.mem_map.1 hclaim
  obtain ⟨r, hr⟩ := h.clauses.compiles_of_mem hk
  exact hr.registered event ((claimKey_eq_iff hname).1 (Prod.mk.inj heq).1)

/-- A transition delivers nothing but its own event, which it receives. -/
private theorem event_of_transitionAction {id event : String} {role : Role} {t : Transition}
    (h : transitionAction id t = Role.action event role) :
    role = .receiver ∧ t.event = some event := by
  cases hevent : t.event with
  | none => exact absurd (h ▸ role.isDelivery event) (not_isDelivery_transitionAction hevent)
  | some other =>
    simp only [transitionAction, hevent] at h
    have hrole : Role.action other .receiver = Role.action event role := h
    obtain ⟨rfl, rfl⟩ := Role.action_inj hrole
    exact ⟨rfl, rfl⟩

/-- **All edges of a compiled chart are registered.** -/
theorem compile_registered {a : Automaton} (h : (c.compile setting).Yields es a es') :
    ∀ e ∈ a.edges, e.Registered es' c.name := by
  obtain ⟨-, -, -, parts, rest, -, hparts, hrest, hedges⟩ := compile_parts h
  intro e he
  rw [hedges, List.mem_append, List.mem_append] at he
  rcases he with (he | he) | he
  · obtain ⟨p, hp, he⟩ := List.mem_flatMap.1 he
    obtain ⟨k, hk, he⟩ := List.mem_flatMap.1 he
    obtain ⟨r, hr⟩ := (hparts p hp).clauses.compiles_of_mem hk
    rcases List.mem_cons.1 he with rfl | he
    · intro role event haction
      rw [hr.belongs.action] at haction
      obtain ⟨rfl, hevent⟩ := event_of_transitionAction (Option.some.inj haction)
      exact hr.registered event hevent
    · exact (hr.rest e he).registered
  · split at he
    · simp at he
    · obtain ⟨r, -, he⟩ := List.mem_flatMap.1 he
      split at he
      · simp at he
      · obtain ⟨handled, hhandled, hloop⟩ := List.mem_filterMap.1 he
        rw [List.mem_eraseDups, List.mem_flatMap] at hhandled
        obtain ⟨r', hr', hevent⟩ := hhandled
        obtain ⟨p, hp, rfl⟩ := List.mem_map.1 hr'
        intro role event haction
        rw [(loop?_spec hloop).2.1] at haction
        have hrole : Role.action handled .receiver = Role.action event role :=
          Option.some.inj haction
        obtain ⟨rfl, rfl⟩ := Role.action_inj hrole
        exact registers_of_mem_events (hparts p hp) hevent
  · exact (hrest e he).registered

end Chart

/-! ### Declarations of a model -/

namespace Model

variable {m m' : Model}

/-- A global variable is added at the end if its name is new. -/
theorem addVariable_eq_ok {v : Variable} :
    addVariable v m = .ok m' ↔
      m.isGlobal v.name = false ∧ m' = { m with vars := m.vars ++ [v] } := by
  unfold addVariable
  cases m.isGlobal v.name <;> simp [failModel, eq_comm]

/-- A constant is added at the end if its name is new. -/
theorem addConstant_eq_ok {c : Constant} :
    addConstant c m = .ok m' ↔
      m.isGlobal c.name = false ∧ m' = { m with constants := m.constants ++ [c] } := by
  unfold addConstant
  cases m.isGlobal c.name <;> simp [failModel, eq_comm]

/-- A property is added at the end if its name is new. -/
theorem addProperty_eq_ok {p : Property} :
    addProperty p m = .ok m' ↔
      p.name ∉ m.properties.map (·.name) ∧ m' = { m with properties := m.properties ++ [p] } := by
  have hold : m.properties.any (·.name == p.name) ↔ p.name ∈ m.properties.map (·.name) := by simp
  simp only [addProperty, hold]
  split
  · rename_i hmem
    exact iff_of_false (by simp [failModel]) fun h => h.1 hmem
  · rename_i hnew
    rw [Except.ok.injEq, eq_comm, and_iff_right hnew]

end Model

/-! ### What leaves automata alone -/

/-- A build **keeps** the automata and the composition of a model. -/
def Keeps {α : Type} (x : ModelM α) : Prop :=
  ∀ (m m' : Model) (a : α), x.Yields m a m' →
    m'.automata = m.automata ∧ m'.composition = m.composition

namespace Keeps

variable {α β : Type}

theorem pure (a : α) : Keeps (Pure.pure a) := by
  intro m m' b h
  obtain ⟨-, rfl⟩ := Build.yields_pure.1 h
  exact ⟨rfl, rfl⟩

theorem ofResult (r : Result α) : Keeps (.ofResult r) := by
  intro m m' a h
  obtain ⟨-, rfl⟩ := Build.yields_ofResult.1 h
  exact ⟨rfl, rfl⟩

theorem get : Keeps get := by
  intro m m' a h
  obtain ⟨-, rfl⟩ := Build.yields_get.1 h
  exact ⟨rfl, rfl⟩

theorem bind {x : ModelM α} {f : α → ModelM β} (hx : Keeps x) (hf : ∀ a, Keeps (f a)) :
    Keeps (x >>= f) := by
  intro m m' b h
  obtain ⟨a, m₁, h₁, h₂⟩ := Build.yields_bind.1 h
  obtain ⟨hautomata, hcomposition⟩ := hx m m₁ a h₁
  obtain ⟨hautomata', hcomposition'⟩ := hf a m₁ m' b h₂
  exact ⟨hautomata'.trans hautomata, hcomposition'.trans hcomposition⟩

theorem addVariable (v : Variable) : Keeps (.change (Model.addVariable v)) := by
  intro m m' u h
  obtain ⟨-, rfl⟩ := Model.addVariable_eq_ok.1 (Build.yields_change.1 h)
  exact ⟨rfl, rfl⟩

theorem addConstant (c : Constant) : Keeps (.change (Model.addConstant c)) := by
  intro m m' u h
  obtain ⟨-, rfl⟩ := Model.addConstant_eq_ok.1 (Build.yields_change.1 h)
  exact ⟨rfl, rfl⟩

theorem addProperty (p : Property) : Keeps (.change (Model.addProperty p)) := by
  intro m m' u h
  obtain ⟨-, rfl⟩ := Model.addProperty_eq_ok.1 (Build.yields_change.1 h)
  exact ⟨rfl, rfl⟩

theorem addVariables (vs : List Variable) : Keeps (Model.addVariables vs) := by
  induction vs with
  | nil => exact pure ()
  | cons v vs ih => exact bind (addVariable v) fun _ => ih

theorem addConstants (cs : List Constant) : Keeps (Model.addConstants cs) := by
  induction cs with
  | nil => exact pure ()
  | cons c cs ih => exact bind (addConstant c) fun _ => ih

theorem addWorld (w : World) : Keeps (Model.addWorld w) := by
  have hrobots : ∀ rs : List Robot, Keeps (Model.addRobots rs) := by
    intro rs
    induction rs with
    | nil => exact pure ()
    | cons r rs ih => exact bind (addVariables _) fun _ => bind (addConstants _) fun _ => ih
  exact bind (addConstants _) fun _ => hrobots _

theorem declareConstants (ds : List ConstantDecl) : Keeps (Descriptor.declareConstants ds) := by
  induction ds with
  | nil => exact pure ()
  | cons d ds ih =>
    exact bind get fun _ => bind (ofResult _) fun _ => bind (addConstant _) fun _ => ih

theorem addEventVariables (es : List Event) : Keeps (Model.addEventVariables es) := by
  induction es with
  | nil => exact pure ()
  | cons e es ih => exact bind (ofResult _) fun _ => bind (addVariables _) fun _ => ih

theorem addProperties (js : List Json) : Keeps (Descriptor.addProperties js) := by
  induction js with
  | nil => exact pure ()
  | cons j js ih => exact bind (ofResult _) fun _ => bind (addProperty _) fun _ => ih

end Keeps

/-! ### Charts -/

/-- The names of the automata of a model. -/
def Model.names (m : Model) : List String := m.automata.map (·.name)

/-- The automata of a model are **charted** by events: their edges are registered, and only they
are. -/
structure Model.Charted (m : Model) (es : Events) : Prop where
  nodup : m.names.Nodup
  registered : ∀ a ∈ m.automata, ∀ e ∈ a.edges, e.Registered es a.name
  members : ∀ {role event x}, es.Registers role event x → x ∈ m.names
  events : es.names.Nodup

/-- An automaton is added at the end if its name is new. -/
theorem Model.addAutomaton_eq_ok {m m' : Model} {a : Automaton} :
    addAutomaton a m = .ok m' ↔ a.name ∉ m.names ∧
      m' = { m with automata := m.automata ++ [a] } := by
  have hnames : (m.automaton? a.name).isSome ↔ a.name ∈ m.names := by simp [automaton?, names]
  unfold addAutomaton
  split
  · rename_i hold
    exact iff_of_false (by simp [failModel]) fun h => h.1 (hnames.1 hold)
  · rename_i hnew
    rw [Except.ok.injEq, eq_comm, and_iff_right fun h => hnew (hnames.2 h)]

theorem Model.addAutomaton_ok {m m' : Model} {a : Automaton} (h : addAutomaton a m = .ok m') :
    a.name ∉ m.names ∧ m' = { m with automata := m.automata ++ [a] } :=
  addAutomaton_eq_ok.1 h

/-- Names stay distinct when automata are added. -/
theorem Model.nodup_addAutomaton {m m' : Model} {a : Automaton} (h : addAutomaton a m = .ok m')
    (hnodup : m.names.Nodup) : m'.names.Nodup := by
  obtain ⟨hnew, rfl⟩ := addAutomaton_ok h
  simp only [names, List.map_append, List.map_cons, List.map_nil] at hnew ⊢
  simpa using hnodup.concat hnew

theorem Descriptor.yields_addCharts_nil {setting : Setting} {es es' : Events} {m m' : Model} :
    (addCharts setting es []).Yields m es' m' ↔ es' = es ∧ m' = m :=
  Build.yields_pure

/-- Charts are added one by one, each in the registry that those before it leave. -/
theorem Descriptor.yields_addCharts_cons {setting : Setting} {es es' : Events} {c : Chart}
    {cs : List Chart} {m m' : Model} :
    (addCharts setting es (c :: cs)).Yields m es' m' ↔
      ∃ a es₁, (c.compile setting).Yields es a es₁ ∧ a.name ∉ m.names ∧
        (addCharts setting es₁ cs).Yields { m with automata := m.automata ++ [a] } es' m' := by
  rcases hrun : (c.compile setting).run.run es with ⟨r, es₁⟩
  simp only [addCharts, hrun, Build.yields_bind, Build.yields_ofResult, Build.yields_change,
    Model.addAutomaton_eq_ok]
  constructor
  · rintro ⟨a, _, ⟨rfl, rfl⟩, _, _, ⟨hnew, rfl⟩, hrest⟩
    exact ⟨a, es₁, hrun, hnew, hrest⟩
  · rintro ⟨a, es₂, hcompile, hnew, hrest⟩
    obtain ⟨rfl, rfl⟩ := Prod.mk.inj (hrun.symm.trans hcompile)
    exact ⟨a, _, ⟨rfl, rfl⟩, (), _, ⟨hnew, rfl⟩, hrest⟩

/-- Adding charts keeps a model charted. -/
theorem Descriptor.charted_addCharts {setting : Setting} (cs : List Chart) {es es' : Events}
    {m m' : Model} (h : (addCharts setting es cs).Yields m es' m') (hm : m.Charted es) :
    m'.Charted es' ∧ m'.composition = m.composition := by
  induction cs generalizing es m with
  | nil =>
    obtain ⟨rfl, rfl⟩ := yields_addCharts_nil.1 h
    exact ⟨hm, rfl⟩
  | cons c cs ih =>
    obtain ⟨a, es₁, hcompile, hnew, hrest⟩ := yields_addCharts_cons.1 h
    obtain ⟨hext, hname, -⟩ := Chart.compile_parts hcompile
    have hcharted : ({ m with automata := m.automata ++ [a] } : Model).Charted es₁ := by
      refine ⟨?_, fun b hb e he => ?_, fun {role event x} hx => ?_, hext.nodup hm.events⟩
      · exact Model.nodup_addAutomaton (Model.addAutomaton_eq_ok.2 ⟨hnew, rfl⟩) hm.nodup
      · rcases List.mem_append.1 hb with hb | hb
        · exact fun role event haction => hext.kept (hm.registered b hb e he role event haction)
        · obtain rfl := List.mem_singleton.1 hb
          rw [hname]
          exact Chart.compile_registered hcompile e he
      · simp only [Model.names, List.map_append, List.map_cons, List.map_nil, List.mem_append,
          List.mem_singleton]
        exact (hext.added hx).imp hm.members fun h => h.trans hname.symm
    have hrest' := ih hrest hcharted
    exact hrest'

/-! ### The first part of a compilation -/

namespace Descriptor

/-- The model that the compilation of a descriptor starts from. -/
def start (d : Descriptor) : Model :=
  { name := d.name, description := d.description.getD defaultDescription }

/-- The first part of a compilation, up to the charts, which gives the **registered** events. -/
def register (d : Descriptor) (charts : Charts) : ModelM Events := do
  if let some w := d.world then Model.addWorld w
  declareConstants d.constants
  let events ← .ofResult d.declaredEvents
  let m ← get
  let setting : Setting :=
    { capacity := d.capacity, globals := m.typeOf, constants := m.constantValues }
  let found ← .ofResult (d.charts.mapM (chartOf charts))
  addCharts setting events found

/-- The rest of a compilation, which **connects** the charts. -/
def connect (d : Descriptor) (events : Events) : ModelM Unit := do
  let live ← Model.declareEvents events
  let composition ←
    match d.composition with
    | some l => .ofResult (Composition.ofListing l)
    | none => Model.composeEvents live
  Model.setComposition composition
  Model.expandDraws d.randomOptions
  addProperties d.properties

theorem build_eq (d : Descriptor) (charts : Charts) :
    d.build charts = d.register charts >>= d.connect := by
  unfold build register connect
  cases d.world <;> cases d.composition <;> simp only [bind_assoc]

/-- A descriptor is compiled if its charts can be registered and then connected, and the model
written. -/
theorem compile_eq_ok {d : Descriptor} {charts : Charts} {m : Model} {json : Json} :
    d.compile charts = .ok (m, json) ↔
      (∃ es m₁, (d.register charts).Yields d.start es m₁ ∧ (d.connect es).Yields m₁ () m) ∧
        m.toJson = .ok json := by
  rw [← Build.yields_bind, ← build_eq, Build.Yields]
  rcases hrun : (d.build charts).run.run d.start with ⟨e | ⟨⟩, m'⟩ <;> rw [start] at hrun
  · simp only [compile, hrun]
    constructor
    · rintro ⟨⟩
    · rintro ⟨⟨⟩, -⟩
  · simp only [compile, hrun, Result.bind_eq_ok]
    constructor
    · rintro ⟨json', hjson, heq⟩
      cases heq
      exact ⟨rfl, hjson⟩
    · rintro ⟨heq, hjson⟩
      cases heq
      exact ⟨json, hjson, rfl⟩

/-- A descriptor that is compiled has its charts registered and then connected. -/
theorem yields_of_compile {d : Descriptor} {charts : Charts} {m : Model} {json : Json}
    (h : d.compile charts = .ok (m, json)) :
    ∃ es m₁, (d.register charts).Yields d.start es m₁ ∧ (d.connect es).Yields m₁ () m :=
  (compile_eq_ok.1 h).1

/-- Events that are only declared have distinct names, and nobody is registered for them. -/
theorem declaredEvents_spec {d : Descriptor} {es : Events} (h : d.declaredEvents = .ok es) :
    es.names.Nodup ∧ ∀ e ∈ es.all, ∀ role, e.members role = [] := by
  have hfold : ∀ (ds : List EventDecl) {es es' : Events},
      ds.foldlM (fun es e => do es.declare e.name (← fieldTypes d.capacity e)) es = .ok es' →
      (es.names.Nodup ∧ ∀ e ∈ es.all, ∀ role, e.members role = []) →
      es'.names.Nodup ∧ ∀ e ∈ es'.all, ∀ role, e.members role = [] := by
    intro ds
    induction ds with
    | nil =>
      rintro es es' ⟨⟩ hes
      exact hes
    | cons decl ds ih =>
      rintro es es' h ⟨hnodup, hempty⟩
      rw [List.foldlM_cons, Result.bind_eq_ok] at h
      obtain ⟨es₁, hdeclare, hrest⟩ := h
      obtain ⟨fields, -, hdeclare⟩ := Result.bind_eq_ok.1 hdeclare
      obtain ⟨hnew, rfl⟩ := Events.declare_eq_ok.1 hdeclare
      refine ih hrest ⟨Events.nodup_names_snoc hnew hnodup, fun e he role => ?_⟩
      rcases List.mem_append.1 he with he | he
      · exact hempty e he role
      · rw [List.mem_singleton.1 he]
        cases role <;> rfl
  exact hfold d.events h ⟨by simp [Events.names], by simp⟩

/-- The setting in which a descriptor compiles its charts, once globals are declared. -/
def setting (d : Descriptor) (m : Model) : Setting where
  capacity := d.capacity
  globals := m.typeOf
  constants := m.constantValues

/-- Declares the **globals** that stand in a descriptor: those of its world, and its constants. -/
def declareGlobals (d : Descriptor) : ModelM Unit := do
  if let some w := d.world then Model.addWorld w
  declareConstants d.constants

theorem register_eq (d : Descriptor) (charts : Charts) :
    d.register charts = (do
      d.declareGlobals
      let events ← .ofResult d.declaredEvents
      let m ← get
      let found ← .ofResult (d.charts.mapM (chartOf charts))
      addCharts (d.setting m) events found) := by
  unfold register declareGlobals
  cases d.world <;> simp only [bind_assoc] <;> rfl

/-- In the first part of a compilation the charts are compiled once the globals are declared. -/
theorem yields_declareGlobals {d : Descriptor} {charts : Charts} {es : Events} {m : Model} :
    (d.register charts).Yields d.start es m ↔
      ∃ (m₀ : Model) (es₀ : Events) (found : List Chart), d.declareGlobals.Yields d.start () m₀ ∧
        d.declaredEvents = .ok es₀ ∧ d.charts.mapM (chartOf charts) = .ok found ∧
        (addCharts (d.setting m₀) es₀ found).Yields m₀ es m := by
  simp only [register_eq, Build.yields_bind, Build.yields_ofResult, Build.yields_get]
  constructor
  · rintro ⟨_, m₀, hglobals, es₀, _, ⟨hes₀, rfl⟩, _, _, ⟨rfl, rfl⟩, found, _, ⟨hfound, rfl⟩, hadd⟩
    exact ⟨_, es₀, found, hglobals, hes₀, hfound, hadd⟩
  · rintro ⟨m₀, es₀, found, hglobals, hes₀, hfound, hadd⟩
    exact ⟨(), m₀, hglobals, es₀, _, ⟨hes₀, rfl⟩, _, _, ⟨rfl, rfl⟩, found, _, ⟨hfound, rfl⟩, hadd⟩

/-- Declaring globals adds no automaton. -/
theorem keeps_declareGlobals (d : Descriptor) : Keeps d.declareGlobals := by
  unfold declareGlobals
  cases d.world with
  | none => exact Keeps.declareConstants _
  | some w => exact Keeps.bind (Keeps.addWorld w) fun _ => Keeps.declareConstants _

/-- In the first part of a compilation charts are added to a model without automata. -/
theorem yields_register {d : Descriptor} {charts : Charts} {es : Events} {m : Model}
    (h : (d.register charts).Yields d.start es m) :
    ∃ (m₀ : Model) (es₀ : Events) (found : List Chart), m₀.automata = [] ∧
      d.declaredEvents = .ok es₀ ∧ d.charts.mapM (chartOf charts) = .ok found ∧
      (addCharts (d.setting m₀) es₀ found).Yields m₀ es m := by
  obtain ⟨m₀, es₀, found, hglobals, hes₀, hfound, hadd⟩ := yields_declareGlobals.1 h
  exact ⟨m₀, es₀, found, (keeps_declareGlobals d _ _ _ hglobals).1, hes₀, hfound, hadd⟩

/-- The first part of a compilation gives a charted model. -/
theorem charted_register {d : Descriptor} {charts : Charts} {es : Events} {m : Model}
    (h : (d.register charts).Yields d.start es m) : m.Charted es := by
  obtain ⟨m₀, es₀, found, hempty, hes₀, -, hadd⟩ := yields_register h
  obtain ⟨hnodup, hnone⟩ := declaredEvents_spec hes₀
  refine (charted_addCharts found hadd ⟨?_, ?_, ?_, hnodup⟩).1
  · simp [Model.names, hempty]
  · simp [hempty]
  · rintro role event x ⟨e, he, hx⟩
    simp [hnone e (Events.mem_of_get? he) role] at hx

end Descriptor

end ChartNet
