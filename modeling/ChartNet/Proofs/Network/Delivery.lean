import ChartNet.Proofs.Network.Expansion
import ChartNet.Proofs.Network.Run

/-!
# Delivery in runs

Events are **delivered** one at a time. In a run of a wired model a step delivers an event only
together with the buffer of the event, either from one sender to the buffer or from the buffer to
all receivers. The buffer has one place, so sends and receives take turns: the invariant of a run is
that the buffer is where the role waits for it whose turn it is.
-/

namespace ChartNet

/-! ### Steps that deliver -/

/-- The automata that **move** in a step. -/
def movers (moves : List Move) : List String := moves.map (·.automaton)

/-- An event is **delivered** by the moves of a step in a role: all of them have its action, and
those who move are the buffer with one sender, or the buffer with all receivers. -/
structure Event.Delivered (e : Event) (role : Role) (moves : List Move) : Prop where
  actions : ∀ v ∈ moves, v.edge.action = some (role.action e.name)
  nodup : (movers moves).Nodup
  buffer : e.name ∈ movers moves
  sender : role = .sender → ∃ x ∈ (e.members .sender).map (·.1), (movers moves).Perm [e.name, x]
  receivers : role = .receiver → ∀ x, x ∈ movers moves ↔
    x = e.name ∨ x ∈ (e.members .receiver).map (·.1)

/-- In a step by a synchronisation the automata that it joins move, each once and by its action. -/
theorem Sync.Joins.moves {s : Sync} {names : List String} {action : String} {moves : List Move}
    (h : s.Joins names action) (hmoves : moves.map (fun v => (v.automaton, v.edge.action)) =
      s.participants.map fun p => (p.1, some p.2)) :
    (∀ v ∈ moves, v.edge.action = some action) ∧ (movers moves).Nodup ∧
      ∀ x, x ∈ movers moves ↔ x ∈ names := by
  have hmovers : movers moves = s.participants.map (·.1) := by
    have hfirst := congrArg (List.map (·.1)) hmoves
    simpa only [movers, List.map_map, Function.comp_def] using hfirst
  refine ⟨fun v hv => ?_, hmovers ▸ h.nodup, fun x => ?_⟩
  · have hmem := List.mem_map_of_mem (f := fun v => (v.automaton, v.edge.action)) hv
    rw [hmoves] at hmem
    obtain ⟨p, hp, hpair⟩ := List.mem_map.1 hmem
    rw [← (Prod.mk.inj hpair).2, ((h.mem p).1 hp).2]
  · rw [hmovers, List.mem_map]
    constructor
    · rintro ⟨p, hp, rfl⟩
      exact ((h.mem p).1 hp).1
    · exact fun hx => ⟨(x, action), (h.mem _).2 ⟨hx, rfl⟩, rfl⟩

/-- The moves of a vector of an event deliver it. -/
theorem Event.delivered_of_mem_vectors {e : Event} {s : Sync} {moves : List Move}
    (hs : s ∈ e.vectors) (hbuffer : ∀ role, e.name ∉ (e.members role).map (·.1))
    (hmoves : moves.map (fun v => (v.automaton, v.edge.action)) =
      s.participants.map fun p => (p.1, some p.2)) : ∃ role, e.Delivered role moves := by
  rcases e.joins_of_mem_vectors hs with ⟨x, hx, hjoins⟩ | hjoins
  · obtain ⟨hactions, hnodup, hmovers⟩ := hjoins.moves hmoves
    have hne : e.name ≠ x := fun h => hbuffer .sender (h ▸ hx)
    refine ⟨.sender, hactions, hnodup, (hmovers _).2 (by simp), fun _ => ⟨x, hx, ?_⟩, nofun⟩
    exact (List.perm_ext_iff_of_nodup hnodup (by simpa using hne)).2 hmovers
  · obtain ⟨hactions, hnodup, hmovers⟩ := hjoins.moves hmoves
    refine ⟨.receiver, hactions, hnodup, (hmovers _).2 (by simp), nofun, fun _ x => ?_⟩
    rw [hmovers, List.mem_cons]

/-- All edges of a buffer deliver its event. -/
theorem Event.exists_role_of_mem_buffer {e : Event} {edge : Edge} (h : edge ∈ e.buffer.edges) :
    ∃ role : Role, edge.action = some (role.action e.name) := by
  rw [edges_buffer] at h
  split at h
  · simp only [List.mem_cons, List.not_mem_nil, or_false] at h
    rcases h with rfl | rfl
    · exact ⟨.sender, rfl⟩
    · exact ⟨.receiver, rfl⟩
  · obtain rfl := List.mem_singleton.1 h
    exact ⟨.sender, rfl⟩

namespace Model.Wired

variable {D : Dynamics} {m : Model} {live : List Event} {c : Composition} {σ σ' : Snapshot D}
  {moves : List Move} {e : Event}

/-- What moves under the name of an event is its buffer. -/
theorem mem_buffer (h : m.Wired live c) {v : Move} (hmove : m.CanMove σ v) (he : e ∈ live)
    (hname : v.automaton = e.name) : v.edge ∈ e.buffer.edges := by
  obtain ⟨a, ha, hautomaton, hedge⟩ := hmove.edge
  rcases h.fits a ha with ⟨e', he', hname', hedges, -⟩ | ⟨hother, -⟩
  · have hsame : e' = e := h.event_unique he' he (hname' ▸ hautomaton.trans hname)
    rwa [← hsame, ← hedges]
  · exact absurd (List.mem_map.2 ⟨e, he, by rw [hautomaton, hname]⟩) hother

/-- The model has the buffer of each live event. -/
theorem exists_buffer (h : m.Wired live c) (he : e ∈ live) :
    ∃ a ∈ m.automata, a.name = e.name ∧ a.edges = e.buffer.edges := by
  obtain ⟨a, ha, hname⟩ := List.mem_map.1 (h.buffers e he)
  rcases h.fits a ha with ⟨e', he', hname', hedges, -⟩ | ⟨hother, -⟩
  · obtain rfl := h.event_unique he' he (hname'.symm.trans hname)
    exact ⟨a, ha, hname, hedges⟩
  · exact absurd (List.mem_map.2 ⟨e, he, hname.symm⟩) hother

/-- If no move has an action of an event, its buffer does not move. -/
private theorem buffer_not_mem_movers (h : m.Wired live c) (he : e ∈ live)
    (hmoves : ∀ v ∈ moves, m.CanMove σ v)
    (hother : ∀ v ∈ moves, ∀ role : Role, v.edge.action ≠ some (role.action e.name)) :
    e.name ∉ movers moves := by
  intro hmem
  obtain ⟨v, hv, hname⟩ := List.mem_map.1 hmem
  obtain ⟨role, haction⟩ := Event.exists_role_of_mem_buffer (h.mem_buffer (hmoves v hv) he hname)
  exact hother v hv role haction

/-- **A step of a wired model delivers one event or none.** If none, no buffer moves. -/
theorem step_cases (h : m.Wired live c) (hstep : m.Step c σ moves σ') :
    (∃ e ∈ live, ∃ role, e.Delivered role moves) ∨
      (∀ v ∈ moves, ∀ (role : Role) event, v.edge.action ≠ some (role.action event)) ∧
        ∀ e ∈ live, e.name ∉ movers moves := by
  cases hstep with
  | sync hsync hparticipants hmoves _ =>
    rcases h.syncs _ hsync with ⟨e, he, hvector⟩ | ⟨x, action, hjoins, hquiet⟩
    · have hbuffer : ∀ role, e.name ∉ (e.members role).map (·.1) := fun role hmem =>
        h.members e he role e.name hmem (List.mem_map_of_mem he)
      exact .inl ⟨e, he, Event.delivered_of_mem_vectors hvector hbuffer hparticipants⟩
    · have hnone : ∀ v ∈ moves, ∀ (role : Role) event,
          v.edge.action ≠ some (role.action event) := by
        intro v hv role event haction
        rw [(hjoins.moves hparticipants).1 v hv] at haction
        exact hquiet (Option.some.inj haction ▸ role.isDelivery event)
      exact .inr ⟨hnone, fun e he => h.buffer_not_mem_movers he hmoves fun v hv role =>
        hnone v hv role e.name⟩
  | @silent v _ haction hmove _ =>
    have hnone : ∀ w ∈ [v], ∀ (role : Role) event, w.edge.action ≠ some (role.action event) := by
      intro w hw role event
      rw [List.mem_singleton.1 hw, haction]
      exact nofun
    exact .inr ⟨hnone, fun e he => h.buffer_not_mem_movers he (by simpa using hmove)
      fun w hw role =>
      hnone w hw role e.name⟩

end Model.Wired

/-! ### Turns -/

/-- The role whose **turn** it is after some number of deliveries: first comes a send. -/
def Role.turn (n : Nat) : Role := if n % 2 = 0 then .sender else .receiver

/-- Roles **alternate** if each comes in its turn. -/
def Alternate (roles : List Role) : Prop := roles = (List.range roles.length).map Role.turn

theorem alternate_nil : Alternate [] := rfl

/-- Another role continues the alternation if it is its turn. -/
theorem Alternate.snoc {roles : List Role} {role : Role} (h : Alternate roles)
    (hturn : role = .turn roles.length) : Alternate (roles ++ [role]) := by
  rw [Alternate, List.length_append, List.length_singleton, List.range_succ, List.map_append, ← h,
    hturn]
  rfl

/-- Where roles alternate, there are as many sends as receives, or one more. -/
theorem Alternate.count {roles : List Role} (h : Alternate roles) :
    roles.count .sender = roles.count .receiver ∨
      roles.count .sender = roles.count .receiver + 1 := by
  have hcount : ∀ n, ((List.range n).map Role.turn).count .sender =
      ((List.range n).map Role.turn).count .receiver + n % 2 := by
    intro n
    induction n with
    | zero => rfl
    | succ n ih =>
      rw [List.range_succ, List.map_append, List.count_append, List.count_append, ih]
      rcases Nat.mod_two_eq_zero_or_one n with hn | hn
      · simp [Role.turn, hn]
        omega
      · simp [Role.turn, hn]
        omega
  have hroles := hcount roles.length
  rw [← h] at hroles
  omega

/-- In which role a step delivers an event. -/
def delivery? (event : String) (moves : List Move) : Option Role :=
  moves.findSome? fun v => [Role.sender, .receiver].find? fun role =>
    v.edge.action == some (role.action event)

/-- The **deliveries** of an event in a run. -/
def deliveries (event : String) (trace : List (List Move)) : List Role :=
  trace.filterMap (delivery? event)

@[simp] theorem deliveries_snoc (event : String) (trace : List (List Move)) (moves : List Move) :
    deliveries event (trace ++ [moves]) =
      deliveries event trace ++ (delivery? event moves).toList := by
  cases h : delivery? event moves <;> simp [deliveries, List.filterMap_append, h]

theorem delivery?_eq_none {event : String} {moves : List Move}
    (h : ∀ v ∈ moves, ∀ role : Role, v.edge.action ≠ some (role.action event)) :
    delivery? event moves = none := by
  rw [delivery?, List.findSome?_eq_none_iff]
  intro v hv
  rw [List.find?_eq_none]
  intro role _
  simpa using h v hv role

/-- A step delivers only its own event. -/
theorem Event.Delivered.delivery?_eq {e : Event} {role : Role} {moves : List Move}
    (h : e.Delivered role moves) (event : String) :
    delivery? event moves = if event = e.name then some role else none := by
  split
  · rename_i heq
    subst heq
    obtain ⟨v, vs, rfl⟩ : ∃ v vs, moves = v :: vs := by
      cases moves with
      | nil => exact absurd h.buffer (by simp [movers])
      | cons v vs => exact ⟨v, vs, rfl⟩
    have haction := h.actions v (by simp)
    cases role with
    | sender => simp [delivery?, haction]
    | receiver =>
      have hne : Role.action e.name .receiver ≠ Role.action e.name .sender := fun heq =>
        absurd (Role.action_inj heq).1 (by decide)
      simp [delivery?, haction, hne]
  · rename_i hne
    refine delivery?_eq_none fun v hv role' haction => hne ?_
    rw [h.actions v hv] at haction
    exact (Role.action_inj (Option.some.inj haction)).2.symm

/-! ### The buffer -/

/-- The other role. -/
def Role.other : Role → Role
  | .sender => .receiver
  | .receiver => .sender

/-- Where a buffer is when a role can be taken. -/
def Role.place : Role → String
  | .sender => emptyBuffer
  | .receiver => fullBuffer

theorem Role.turn_succ (n : Nat) : Role.turn (n + 1) = (Role.turn n).other := by
  unfold turn
  rcases Nat.mod_two_eq_zero_or_one n with hn | hn
  · simp [hn, other, Nat.add_mod]
  · simp [hn, other, Nat.add_mod]

theorem Role.place_injective : Function.Injective Role.place := by
  intro role role' h
  cases role <;> cases role' <;> first | rfl | exact absurd h (by decide)

/-- A delivery takes a buffer from the place of its role to the place of the other. -/
theorem Event.places_of_mem_buffer {e : Event} (hreceivers : e.hasReceivers) {edge : Edge}
    (hedge : edge ∈ e.buffer.edges) {role : Role}
    (haction : edge.action = some (role.action e.name)) :
    edge.location = role.place ∧ ∀ d ∈ edge.destinations, d.location = some role.other.place := by
  rw [edges_buffer, if_pos hreceivers] at hedge
  simp only [List.mem_cons, List.not_mem_nil, or_false] at hedge
  rcases hedge with rfl | rfl
  · obtain ⟨rfl, -⟩ := Role.action_inj (Option.some.inj haction)
    exact ⟨rfl, by simp [Role.other, Role.place]⟩
  · obtain ⟨rfl, -⟩ := Role.action_inj (Option.some.inj haction)
    exact ⟨rfl, by simp [Role.other, Role.place]⟩

namespace Model

variable {D : Dynamics} {m : Model} {live : List Event} {c : Composition} {σ σ' : Snapshot D}
  {moves : List Move} {e : Event}

theorem Step.canMove (h : m.Step c σ moves σ') : ∀ v ∈ moves, m.CanMove σ v := by
  cases h with
  | sync _ _ hmoves _ => exact hmoves
  | silent _ hmove _ => simpa using hmove

theorem Step.location_eq (h : m.Step c σ moves σ') :
    σ'.location = locationAfter moves σ.location := by
  cases h <;> rfl

/-- What does not move stays where it is. -/
theorem locationAfter_of_not_mem {location : String → String} {x : String}
    (h : x ∉ movers moves) : locationAfter moves location x = location x := by
  have hfind : moves.find? (·.automaton == x) = none := by
    rw [List.find?_eq_none]
    intro v hv hname
    exact h (List.mem_map.2 ⟨v, hv, by simpa using hname⟩)
  rw [locationAfter, hfind]

/-- A delivery finds the buffer in the place of its role, and leaves it in the place of the
other. -/
theorem Wired.places_of_delivered (h : m.Wired live c) (hstep : m.Step c σ moves σ')
    (he : e ∈ live) (hreceivers : e.hasReceivers) {role : Role}
    (hdelivered : e.Delivered role moves) :
    σ.location e.name = role.place ∧ σ'.location e.name = role.other.place := by
  obtain ⟨w, hw, hwname⟩ := List.mem_map.1 hdelivered.buffer
  obtain ⟨v, hfind⟩ : ∃ v, moves.find? (·.automaton == e.name) = some v := by
    rw [← Option.isSome_iff_exists, List.find?_isSome]
    exact ⟨w, hw, by simpa using hwname⟩
  have hv := List.mem_of_find?_eq_some hfind
  have hname : v.automaton = e.name := by simpa using List.find?_some hfind
  have hmove := hstep.canMove v hv
  obtain ⟨hplace, hdestinations⟩ := Event.places_of_mem_buffer hreceivers
    (h.mem_buffer hmove he hname) (hdelivered.actions v hv)
  refine ⟨by rw [← hname, ← hmove.location, hplace], ?_⟩
  rw [hstep.location_eq, locationAfter, hfind]
  simp [hdestinations _ hmove.destination]

/-- **In a run of a wired model, sends and receives of an event take turns**, and its buffer is in
the place of the role whose turn it is. -/
theorem Wired.alternate (h : m.Wired live c) (he : e ∈ live) (hreceivers : e.hasReceivers)
    {trace : List (List Move)} (hrun : m.Run c trace σ) :
    Alternate (deliveries e.name trace) ∧
      σ.location e.name = (Role.turn (deliveries e.name trace).length).place := by
  induction hrun with
  | start hinitial =>
    refine ⟨alternate_nil, ?_⟩
    obtain ⟨a, ha, hname⟩ := List.mem_map.1 (h.buffers e he)
    have hlocation := hinitial a ha
    rcases h.fits a ha with ⟨_, _, _, _, hempty⟩ | ⟨hother, -⟩
    · rw [hempty, hname] at hlocation
      exact (Option.some.inj hlocation).symm
    · exact absurd (List.mem_map.2 ⟨e, he, hname.symm⟩) hother
  | @step trace moves σ σ' _ hstep ih =>
    obtain ⟨halternate, hplace⟩ := ih
    rw [deliveries_snoc]
    rcases h.step_cases hstep with ⟨e', he', role, hdelivered⟩ | ⟨hquiet, hstay⟩
    · rw [hdelivered.delivery?_eq]
      split
      · rename_i hname
        -- a delivery of this event: the place of the buffer tells whose turn it was
        obtain rfl := h.event_unique he he' hname
        obtain ⟨hbefore, hafter⟩ := h.places_of_delivered hstep he hreceivers hdelivered
        have hturn : role = .turn (deliveries e.name trace).length :=
          Role.place_injective (hbefore.symm.trans hplace)
        refine ⟨halternate.snoc hturn, ?_⟩
        rw [hafter, hturn]
        simp [Role.turn_succ]
      · rename_i hname
        have hstay : e.name ∉ movers moves := by
          refine h.buffer_not_mem_movers he hstep.canMove fun v hv role' haction => hname ?_
          rw [hdelivered.actions v hv] at haction
          exact (Role.action_inj (Option.some.inj haction)).2.symm
        rw [hstep.location_eq, locationAfter_of_not_mem hstay]
        simpa using ⟨halternate, hplace⟩
    · rw [delivery?_eq_none fun v hv role => hquiet v hv role e.name, hstep.location_eq,
        locationAfter_of_not_mem (hstay e he)]
      simpa using ⟨halternate, hplace⟩

end Model

/-! ### Compiled descriptors -/

/-- Every step of a run is one. -/
theorem Model.Run.step_of_mem {D : Dynamics} {m : Model} {c : Composition} {σ : Snapshot D}
    {trace : List (List Move)} (h : m.Run c trace σ) {moves : List Move} (hmoves : moves ∈ trace) :
    ∃ σ₁ σ₂ : Snapshot D, m.Step c σ₁ moves σ₂ := by
  induction h with
  | start => simp at hmoves
  | step _ hstep ih =>
    rcases List.mem_append.1 hmoves with hmoves | hmoves
    · exact ih hmoves
    · exact ⟨_, _, List.mem_singleton.1 hmoves ▸ hstep⟩

namespace Descriptor

variable {d : Descriptor} {charts : Charts} {m : Model} {json : Json}

/-- The **phases** of a compilation without a composition of its own: after the charts, the events
are declared and composed, the composition is set, and the random assignments are expanded. -/
theorem phases_compile (hcomposition : d.composition = none)
    (h : d.compile charts = .ok (m, json)) :
    ∃ events m₁ live m₂ m₃ c m₄ m₅ m₆, (d.register charts).Yields d.start events m₁ ∧
      (Model.liveEvents events.all).Yields m₁ live m₂ ∧ m₃.automata = m₂.automata ∧
      (Model.composeEvents live).Yields m₃ c m₄ ∧ (Model.setComposition c).Yields m₄ () m₅ ∧
      (Model.expandDraws d.randomOptions).Yields m₅ () m₆ ∧
      m.automata = m₆.automata ∧ m.composition = m₆.composition := by
  obtain ⟨events, m₁, hregister, hconnect⟩ := yields_of_compile h
  simp only [connect, hcomposition, Model.declareEvents, Build.yields_bind,
    Build.yields_pure] at hconnect
  obtain ⟨live, m₃, ⟨_, m₂, hlive, _, _, hvars, rfl, rfl⟩, c, m₄, hcompose, _, m₅, hset, _, m₆,
    hexpand, hproperties⟩ := hconnect
  obtain ⟨hautomata, hsame⟩ := Keeps.addProperties _ _ _ _ hproperties
  exact ⟨events, m₁, live, m₂, m₃, c, m₄, m₅, m₆, hregister, hlive,
    (Keeps.addEventVariables _ _ _ _ hvars).1, hcompose, hset, hexpand, hautomata, hsame⟩

/-- Without a composition of its own, a descriptor becomes a model that is connected to the events
that somebody sends. -/
theorem connected_compile (hcomposition : d.composition = none)
    (h : d.compile charts = .ok (m, json)) :
    ∃ events m₁, (d.register charts).Yields d.start events m₁ ∧ m₁.Charted events ∧
      m.Connected (events.all.filter (·.hasSenders)) := by
  obtain ⟨events, m₁, live, m₂, m₃, c, m₄, m₅, m₆, hregister, hlive, hvars, hcompose, hset, hexpand,
    hautomata, hsame⟩ := phases_compile hcomposition h
  have hcharted := charted_register hregister
  refine ⟨events, m₁, hregister, hcharted, ?_⟩
  have hwired := Model.wired_composeEvents hcharted hlive hvars hcompose
  obtain ⟨hconnected, -⟩ := Model.connected_setComposition hset hwired
  have hfinal := (Model.connected_expandDraws hexpand hconnected).congr hautomata hsame
  rwa [(Model.liveEvents_spec _ hlive).1] at hfinal

/-- **A compiled descriptor without a composition of its own delivers events one at a time.** -/
theorem compile_delivers (hcomposition : d.composition = none)
    (h : d.compile charts = .ok (m, json)) :
    ∃ (events : Events) (m₁ : Model) (c : Composition),
      (d.register charts).Yields d.start events m₁ ∧ m.composition = some c ∧
      ∀ (D : Dynamics) (trace : List (List Move)) (σ : Snapshot D), m.Run c trace σ →
        (∀ moves ∈ trace, ∀ v ∈ moves, ∀ (role : Role) (event : String),
          v.edge.action = some (role.action event) →
            ∃ e, events.get? event = some e ∧ e.Delivered role moves ∧
              ∃ a ∈ m.automata, a.name = event ∧ a.edges = e.buffer.edges) ∧
        ∀ event x, events.Registers .receiver event x →
          Alternate (deliveries event trace) ∧
            ((deliveries event trace).count .sender = (deliveries event trace).count .receiver ∨
              (deliveries event trace).count .sender =
                (deliveries event trace).count .receiver + 1) := by
  obtain ⟨events, m₁, hregister, hcharted, c, hc, hwired⟩ := connected_compile hcomposition h
  have hlive : ∀ {e}, e ∈ events.all.filter (·.hasSenders) → events.get? e.name = some e :=
    fun he => Events.get?_of_mem hcharted.events (List.mem_of_mem_filter he)
  refine ⟨events, m₁, c, hregister, hc, fun D trace σ hrun => ⟨?_, ?_⟩⟩
  · intro moves hmoves v hv role event haction
    obtain ⟨σ₁, σ₂, hstep⟩ := hrun.step_of_mem hmoves
    rcases hwired.step_cases hstep with ⟨e, he, role', hdelivered⟩ | ⟨hquiet, -⟩
    · rw [hdelivered.actions v hv] at haction
      obtain ⟨rfl, rfl⟩ := Role.action_inj (Option.some.inj haction)
      exact ⟨e, hlive he, hdelivered, hwired.exists_buffer he⟩
    · exact absurd haction (hquiet v hv role event)
  · rintro event x ⟨e, he, hx⟩
    obtain rfl := Events.name_of_get? he
    have halternate : Alternate (deliveries e.name trace) := by
      by_cases hsenders : e.hasSenders
      · have hreceivers : e.hasReceivers := by
          have hne : e.receivers ≠ [] := fun hnil => by simp [Event.members, hnil] at hx
          simpa [Event.hasReceivers] using hne
        exact (hwired.alternate (List.mem_filter.2 ⟨Events.mem_of_get? he, hsenders⟩) hreceivers
          hrun).1
      · -- the event was dropped with all its edges
        have hnone : deliveries e.name trace = [] := by
          refine List.filterMap_eq_nil_iff.2 fun moves hmoves => ?_
          obtain ⟨σ₁, σ₂, hstep⟩ := hrun.step_of_mem hmoves
          rcases hwired.step_cases hstep with ⟨e', he', role, hdelivered⟩ | ⟨hquiet, -⟩
          · rw [hdelivered.delivery?_eq, if_neg]
            intro hname
            have hsame : e = e' := Option.some.inj ((hname ▸ he).symm.trans (hlive he'))
            exact hsenders (hsame ▸ (List.mem_filter.1 he').2)
          · exact delivery?_eq_none fun v hv role => hquiet v hv role e.name
        rw [hnone]
        exact alternate_nil
    exact ⟨halternate, halternate.count⟩

/-- A chart that sends an event when it starts, and one that receives it. -/
theorem compile_delivers_of_two_charts :
    let sender : Chart :=
      { name := "sender", initial := "start"
        states := [{ id := "start", onEntry := some [.send "go" none] }] }
    let receiver : Chart :=
      { name := "receiver", initial := "idle"
        states := [{ id := "idle"
                     transitions := some [{ event := some "go", goal := .single "idle" none }] }] }
    let d : Descriptor :=
      { name := "network", capacity := .whole 1, randomOptions := .whole 1
        charts := [.inline sender, .inline receiver] }
    ∃ m json c, d.compile = .ok (m, json) ∧ m.composition = some c ∧
      ∀ (D : Dynamics) (trace : List (List Move)) (σ : Snapshot D), m.Run c trace σ →
        Alternate (deliveries "go" trace) ∧ ∀ moves ∈ trace, ∀ v ∈ moves,
          v.edge.action = some (sendAction "go") → (movers moves).Perm ["go", "sender"] := by
  intro sender receiver d
  obtain ⟨⟨m, json⟩, hcompile, -⟩ :=
    Result.exists_of_any (x := d.compile) (p := fun _ => true) (by decide +kernel)
  obtain ⟨events, m₁, c, hregister, hc, hruns⟩ := compile_delivers rfl hcompile
  -- who sends and who receives the event
  have hgo : (((d.register []).run.run d.start).1.toOption.bind (·.get? "go")).map
      (fun e => (e.senders.map (·.1), e.receivers.map (·.1))) =
        some (["sender"], ["receiver"]) := by
    decide +kernel
  have hrun : ((d.register []).run.run d.start).1 = .ok events := congrArg Prod.fst hregister
  rw [hrun] at hgo
  obtain ⟨e, he, hmembers⟩ := Option.map_eq_some_iff.1 hgo
  obtain ⟨hsenders, hreceivers⟩ := Prod.mk.inj hmembers
  refine ⟨m, json, c, hcompile, hc, fun D trace σ hrun => ?_⟩
  obtain ⟨hdelivered, halternate⟩ := hruns D trace σ hrun
  refine ⟨(halternate "go" "receiver" ⟨e, he, ?_⟩).1, fun moves hmoves v hv haction => ?_⟩
  · simp [Event.members, hreceivers]
  · obtain ⟨e', he', hmoved, -⟩ := hdelivered moves hmoves v hv .sender "go" haction
    obtain rfl := Option.some.inj (he.symm.trans he')
    obtain ⟨x, hx, hperm⟩ := hmoved.sender rfl
    rw [Event.members, hsenders, List.mem_singleton] at hx
    rwa [hx, Events.name_of_get? he] at hperm

end Descriptor

end ChartNet
