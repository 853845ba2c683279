import ChartNet.Proofs.Network.Charted

/-!
# Wiring

How the automata of a model are connected. The events that stay become automata of their own, and
`Model.Wired` is what the rest of the compilation keeps: every automaton is a buffer, or a chart
whose edges deliver only events that know of it; and every synchronisation is a vector of an event,
or one automaton acting alone without delivering anything. So no vector that is added later can
deliver an event past its buffer.
-/

namespace ChartNet

/-! ### Live events -/

/-- An edge of an automaton is **wired** to events: those that it delivers know of the automaton. -/
def Edge.Wired (live : List Event) (automaton : String) (e : Edge) : Prop :=
  ∀ role event, e.action = some (Role.action event role) →
    ∃ l ∈ live, l.name = event ∧ automaton ∈ (l.members role).map (·.1)

namespace Model

/-- The **live** events are those that somebody sends. Edges that receive other events are removed,
and no other edges change. -/
theorem liveEvents_spec (es : List Event) {m m' : Model} {live : List Event}
    (h : (liveEvents es).Yields m live m') :
    live = es.filter (·.hasSenders) ∧ m'.names = m.names ∧ m'.composition = m.composition ∧
      ∀ a' ∈ m'.automata, ∃ a ∈ m.automata, a'.name = a.name ∧ ∀ e ∈ a'.edges, e ∈ a.edges ∧
        ∀ event ∈ es, event.hasSenders = false → event.hasReceivers →
          e.action ≠ some (receiveAction event.name) := by
  induction es generalizing m live with
  | nil =>
    obtain ⟨rfl, rfl⟩ := Build.yields_pure.1 h
    exact ⟨rfl, rfl, rfl, fun a ha => ⟨a, ha, rfl, by simp⟩⟩
  | cons event es ih =>
    simp only [liveEvents] at h
    split at h
    · rename_i hsenders
      simp only [Build.yields_bind, Build.yields_pure] at h
      obtain ⟨rest, _, hrest, rfl, rfl⟩ := h
      obtain ⟨rfl, hnames, hcomposition, hautomata⟩ := ih hrest
      refine ⟨by simp [hsenders], hnames, hcomposition, fun a' ha' => ?_⟩
      obtain ⟨a, ha, hname, hedges⟩ := hautomata a' ha'
      refine ⟨a, ha, hname, fun e he => ⟨(hedges e he).1, ?_⟩⟩
      simp only [List.mem_cons, forall_eq_or_imp, hsenders, reduceCtorEq, false_implies, true_and]
      exact (hedges e he).2
    · rename_i hsenders
      split at h
      · split at h
        · simp only [Build.yields_bind, Build.yields_modify] at h
          obtain ⟨_, _, rfl, hrest⟩ := h
          obtain ⟨rfl, hnames, hcomposition, hautomata⟩ := ih hrest
          refine ⟨by simp [hsenders], ?_, hcomposition, fun a' ha' => ?_⟩
          · rw [hnames]
            simp [names, removeAction, Automaton.removeAction, Function.comp_def]
          · obtain ⟨a₁, ha₁, hname, hedges⟩ := hautomata a' ha'
            -- receives of an event that nobody sends are taken out of every automaton
            obtain ⟨a, ha, rfl⟩ := List.mem_map.1 ha₁
            refine ⟨a, ha, hname, fun e he => ?_⟩
            obtain ⟨hmem, hothers⟩ := hedges e he
            obtain ⟨hmem, hkept⟩ := List.mem_filter.1 hmem
            refine ⟨hmem, ?_⟩
            simp only [List.mem_cons, forall_eq_or_imp]
            exact ⟨fun _ _ => by simpa using hkept, hothers⟩
        · simp [failModel] at h
      · rename_i hreceivers
        obtain ⟨rfl, hnames, hcomposition, hautomata⟩ := ih h
        refine ⟨by simp [hsenders], hnames, hcomposition, fun a' ha' => ?_⟩
        obtain ⟨a, ha, hname, hedges⟩ := hautomata a' ha'
        refine ⟨a, ha, hname, fun e he => ⟨(hedges e he).1, ?_⟩⟩
        simp only [List.mem_cons, forall_eq_or_imp, hreceivers]
        exact ⟨by simp, (hedges e he).2⟩

end Model

/-! ### Wired models -/

@[simp] theorem Event.name_buffer (e : Event) : e.buffer.name = e.name := by
  unfold buffer
  split <;> simp

@[simp] theorem Event.initial_buffer (e : Event) : e.buffer.initial = some emptyBuffer := by
  unfold buffer
  split <;> simp

/-- The edges of a buffer: the first fills it, the second empties it. -/
theorem Event.edges_buffer (e : Event) :
    e.buffer.edges = if e.hasReceivers then
      [{ location := emptyBuffer, action := some (Role.sender.action e.name)
         destinations := [{ location := some fullBuffer }] },
       { location := fullBuffer, action := some (Role.receiver.action e.name)
         destinations := [{ location := some emptyBuffer }] }]
    else
      [{ location := emptyBuffer, action := some (Role.sender.action e.name)
         destinations := [{ location := some emptyBuffer }] }] := by
  unfold buffer
  split
  · rw [Automaton.edges_addEdges]
    rfl
  · rw [Automaton.edges_addEdges]
    rfl

/-- A buffer delivers its own event only, and in roles that somebody has. -/
theorem Event.member_of_mem_buffer {e : Event} (hsent : e.hasSenders) {edge : Edge}
    (hedge : edge ∈ e.buffer.edges) {role : Role} {event : String}
    (haction : edge.action = some (Role.action event role)) :
    e.name = event ∧ ∃ x, x ∈ (e.members role).map (·.1) := by
  have hmember : ∀ {l : List (String × String)}, (!l.isEmpty) = true → ∃ x, x ∈ l.map (·.1) := by
    intro l hl
    obtain ⟨p, hp⟩ := List.exists_mem_of_ne_nil l (by simpa using hl)
    exact ⟨p.1, List.mem_map_of_mem hp⟩
  rw [edges_buffer] at hedge
  split at hedge
  · rename_i hreceivers
    simp only [List.mem_cons, List.not_mem_nil, or_false] at hedge
    rcases hedge with rfl | rfl
    · obtain ⟨rfl, rfl⟩ := Role.action_inj (Option.some.inj haction)
      exact ⟨rfl, hmember hsent⟩
    · obtain ⟨rfl, rfl⟩ := Role.action_inj (Option.some.inj haction)
      exact ⟨rfl, hmember hreceivers⟩
  · obtain rfl := List.mem_singleton.1 hedge
    obtain ⟨rfl, rfl⟩ := Role.action_inj (Option.some.inj haction)
    exact ⟨rfl, hmember hsent⟩

/-- An automaton **fits** live events: it is the buffer of one of them, or wired to them. -/
def Automaton.Fits (live : List Event) (a : Automaton) : Prop :=
  (∃ e ∈ live, a.name = e.name ∧ a.edges = e.buffer.edges ∧ a.initial = some emptyBuffer) ∨
    a.name ∉ live.map (·.name) ∧ ∀ e ∈ a.edges, e.Wired live a.name

/-- A model is **wired** to live events by a composition. -/
structure Model.Wired (m : Model) (live : List Event) (c : Composition) : Prop where
  nodup : m.names.Nodup
  distinct : (live.map (·.name)).Nodup
  fits : ∀ a ∈ m.automata, a.Fits live
  buffers : ∀ e ∈ live, e.name ∈ m.names
  sent : ∀ e ∈ live, e.hasSenders
  members : ∀ e ∈ live, ∀ role, ∀ x ∈ (e.members role).map (·.1), x ∉ live.map (·.name)
  vectors : ∀ e ∈ live, ∀ s ∈ e.vectors, s ∈ c.syncs
  syncs : ∀ s ∈ c.syncs, (∃ e ∈ live, s ∈ e.vectors) ∨
    ∃ x action, s.Joins [x] action ∧ ¬ IsDelivery action

namespace Model

/-- Buffers are added at the end, and each brings its vectors. -/
theorem addBuffers_spec (live : List Event) {m m' : Model} {c c' : Composition}
    (h : (addBuffers c live).Yields m c' m') (hnodup : m.names.Nodup) :
    m'.automata = m.automata ++ live.map (·.buffer) ∧ m'.names.Nodup ∧
      c'.syncs = c.syncs ++ live.flatMap (·.vectors) := by
  induction live generalizing m c with
  | nil =>
    simp only [addBuffers, Build.yields_pure] at h
    obtain ⟨rfl, rfl⟩ := h
    exact ⟨by simp, hnodup, by simp⟩
  | cons e live ih =>
    simp only [addBuffers, Build.yields_bind, Build.yields_change, Build.yields_ofResult] at h
    obtain ⟨_, m₁, hadd, c₁, _, ⟨hevent, rfl⟩, hrest⟩ := h
    obtain ⟨hautomata, hnodup', hsyncs⟩ := ih hrest (nodup_addAutomaton hadd hnodup)
    obtain ⟨-, rfl⟩ := addAutomaton_ok hadd
    obtain ⟨-, -, hsyncs₁⟩ := Composition.addEvent_ok hevent
    refine ⟨by simp [hautomata], hnodup', ?_⟩
    rw [hsyncs, hsyncs₁]
    simp

/-- Elements alone do not synchronise. -/
private theorem syncs_ofElements {elements : List String} {c : Composition}
    (h : Composition.ofElements elements = .ok c) : c.syncs = [] := by
  have hfold : ∀ (elements : List String) {c c' : Composition},
      elements.foldlM Composition.addElement c = .ok c' → c'.syncs = c.syncs := by
    intro elements
    induction elements with
    | nil =>
      rintro c c' ⟨⟩
      rfl
    | cons x xs ih =>
      intro c c' h
      rw [List.foldlM_cons, Result.bind_eq_ok] at h
      obtain ⟨c₁, hfirst, hrest⟩ := h
      obtain ⟨-, rfl⟩ := Composition.addElement_ok hfirst
      rw [ih hrest]
  exact hfold elements h

/-- The edges that stay after other events were dropped are wired to the live events. -/
theorem wired_of_registered {es : Events} {automaton : String} {e : Edge}
    (hregistered : e.Registered es automaton)
    (hkept : ∀ event ∈ es.all, event.hasSenders = false → event.hasReceivers →
      e.action ≠ some (receiveAction event.name)) :
    e.Wired (es.all.filter (·.hasSenders)) automaton := by
  intro role event haction
  obtain ⟨l, hget, hmember⟩ := hregistered role event haction
  obtain rfl := Events.name_of_get? hget
  have hne : l.members role ≠ [] := fun hnil => by simp [hnil] at hmember
  refine ⟨l, List.mem_filter.2 ⟨Events.mem_of_get? hget, ?_⟩, rfl, hmember⟩
  by_contra hsenders
  cases role with
  | sender => exact hsenders (by simpa [Event.hasSenders, Event.members] using hne)
  | receiver =>
    refine hkept l (Events.mem_of_get? hget) (by simpa using hsenders) ?_ haction
    simpa [Event.hasReceivers, Event.members] using hne

/-- **Composing the live events wires a charted model.** -/
theorem wired_composeEvents {m m₁ m₂ m₃ : Model} {es : Events} {live : List Event}
    {c : Composition} (hm : m.Charted es) (hlive : (liveEvents es.all).Yields m live m₁)
    (hvars : m₂.automata = m₁.automata) (hcompose : (composeEvents live).Yields m₂ c m₃) :
    m₃.Wired live c := by
  obtain ⟨rfl, hnames, -, hautomata⟩ := liveEvents_spec es.all hlive
  obtain ⟨c₀, helements, hbuffers⟩ : ∃ c₀, Composition.ofElements m₂.names = .ok c₀ ∧
      (addBuffers c₀ (es.all.filter (·.hasSenders))).Yields m₂ c m₃ := by
    simpa [composeEvents, names] using hcompose
  have hnames₂ : m₂.names = m.names := by rw [← hnames, names, hvars, names]
  obtain ⟨hall, hnodup, hsyncs⟩ := addBuffers_spec _ hbuffers (hnames₂ ▸ hm.nodup)
  rw [syncs_ofElements helements, List.nil_append] at hsyncs
  have hnames₃ : m₃.names = m.names ++ (es.all.filter (·.hasSenders)).map (·.name) := by
    rw [names, hall, List.map_append, ← names, hnames₂, List.map_map]
    congr 2
    funext e
    exact e.name_buffer
  rw [hnames₃, List.nodup_append] at hnodup
  obtain ⟨-, hdistinct, hdisjoint⟩ := hnodup
  -- names stayed distinct when the buffers were added, so no chart has the name of a live event
  have hchart : ∀ x ∈ m.names, x ∉ (es.all.filter (·.hasSenders)).map (·.name) :=
    fun x hx hx' => hdisjoint x hx x hx' rfl
  refine ⟨by rw [hnames₃, List.nodup_append]; exact ⟨hm.nodup, hdistinct, hdisjoint⟩, hdistinct, ?_,
    ?_, ?_, ?_, ?_, ?_⟩
  · intro a ha
    rw [hall, hvars] at ha
    rcases List.mem_append.1 ha with ha | ha
    · obtain ⟨a₀, ha₀, hname, hedges⟩ := hautomata a ha
      refine .inr ⟨hname ▸ hchart _ (List.mem_map_of_mem ha₀), fun e he => ?_⟩
      obtain ⟨hmem, hkept⟩ := hedges e he
      exact wired_of_registered (hname ▸ hm.registered a₀ ha₀ e hmem) hkept
    · obtain ⟨e, he, rfl⟩ := List.mem_map.1 ha
      exact .inl ⟨e, he, e.name_buffer, rfl, e.initial_buffer⟩
  · intro e he
    rw [hnames₃]
    exact List.mem_append_right _ (List.mem_map_of_mem he)
  · exact fun e he => (List.mem_filter.1 he).2
  · intro e he role x hx
    exact hchart x (hm.members ⟨e, Events.get?_of_mem hm.events (List.mem_of_mem_filter he), hx⟩)
  · intro e he s hs
    rw [hsyncs]
    exact List.mem_flatMap.2 ⟨e, he, hs⟩
  · intro s hs
    rw [hsyncs] at hs
    exact .inl (List.mem_flatMap.1 hs)

/-! ### Completing the composition -/

namespace Wired

variable {m : Model} {live : List Event} {c : Composition}

/-- Live events of one name are one. -/
theorem event_unique (h : m.Wired live c) {e e' : Event} (he : e ∈ live) (he' : e' ∈ live)
    (hname : e.name = e'.name) : e = e' :=
  List.inj_on_of_nodup_map h.distinct he he' hname

/-- What an automaton of a wired model delivers, it delivers in a vector. -/
theorem exists_vector (h : m.Wired live c) {a : Automaton} (ha : a.Fits live) {e : Edge}
    (he : e ∈ a.edges) {role : Role} {event : String}
    (haction : e.action = some (Role.action event role)) :
    ∃ s ∈ c.syncs, ∃ names, a.name ∈ names ∧ s.Joins names (Role.action event role) := by
  rcases ha with ⟨l, hl, hname, hedges, -⟩ | ⟨-, hwired⟩
  · -- the buffer itself takes part in all vectors of its event
    rw [hedges] at he
    obtain ⟨rfl, x, hx⟩ := Event.member_of_mem_buffer (h.sent l hl) he haction
    obtain ⟨s, hs, names, hmem, -, hjoins⟩ := Event.exists_vector hx
    exact ⟨s, h.vectors l hl s hs, names, hname ▸ hmem, hjoins⟩
  · obtain ⟨l, hl, rfl, hmember⟩ := hwired e he role event haction
    obtain ⟨s, hs, names, -, hmem, hjoins⟩ := Event.exists_vector hmember
    exact ⟨s, h.vectors l hl s hs, names, hmem, hjoins⟩

/-- An action that no synchronisation has delivers nothing. -/
theorem not_isDelivery_of_uncovered (h : m.Wired live c) {a : Automaton} (ha : a.Fits live)
    {action : String} (haction : action ∈ uncovered c a) : ¬ IsDelivery action := by
  intro hdelivery
  obtain ⟨role, event, rfl⟩ := hdelivery.exists_role
  obtain ⟨hmem, huncovered⟩ := List.mem_filter.1 haction
  rw [Automaton.actions, List.mem_eraseDups] at hmem
  obtain ⟨e, he, heaction⟩ := List.mem_filterMap.1 hmem
  obtain ⟨s, hs, names, hname, hjoins⟩ := h.exists_vector ha he heaction
  have hsynced : Role.action event role ∈ c.syncedActions a.name := by
    rw [Composition.syncedActions, List.mem_eraseDups, List.mem_filterMap]
    exact ⟨s, hs, hjoins.get hname⟩
  simp [hsynced] at huncovered

/-- A vector of its own for a quiet action keeps a model wired. -/
theorem addSync (h : m.Wired live c) {x action : String} {c' : Composition}
    (hquiet : ¬ IsDelivery action) (hadd : c.addSync action [(x, action)] = .ok c') :
    m.Wired live c' := by
  have hc' := Composition.addSync_ok hadd
  refine { h with vectors := ?_, syncs := ?_ }
  · intro e he s hs
    rw [hc']
    exact List.mem_append_left _ (h.vectors e he s hs)
  · intro s hs
    rw [hc'] at hs
    rcases List.mem_append.1 hs with hs | hs
    · exact h.syncs s hs
    · obtain rfl := List.mem_singleton.1 hs
      exact .inr ⟨x, action, Sync.joins_arrange action [x] action, hquiet⟩

/-- Only the automata of a model count. -/
theorem congr {m' : Model} (h : m.Wired live c) (hautomata : m'.automata = m.automata) :
    m'.Wired live c := by
  have hnames : m'.names = m.names := by rw [names, hautomata, names]
  exact { h with
    nodup := hnames ▸ h.nodup
    fits := hautomata ▸ h.fits
    buffers := hnames ▸ h.buffers }

end Wired

/-- A model is **connected** if its own composition wires it. -/
def Connected (m : Model) (live : List Event) : Prop :=
  ∃ c, m.composition = some c ∧ m.Wired live c

theorem Connected.congr {m m' : Model} {live : List Event} (h : m.Connected live)
    (hautomata : m'.automata = m.automata) (hcomposition : m'.composition = m.composition) :
    m'.Connected live := by
  obtain ⟨c, hc, hwired⟩ := h
  exact ⟨c, hcomposition.trans hc, hwired.congr hautomata⟩

theorem changeComposition_ok {f : Composition → Result Composition} {m m' : Model}
    {c : Composition} (hc : m.composition = some c) (h : changeComposition f m = .ok m') :
    ∃ c', f c = .ok c' ∧ m' = { m with composition := some c' } := by
  simp only [changeComposition, requireComposition, hc, Result.bind_eq_ok] at h
  obtain ⟨_, hfound, c', hchange, hresult⟩ := h
  cases hfound
  exact ⟨c', hchange, (Except.ok.inj hresult).symm⟩

variable {live : List Event}

/-- Quiet actions may get vectors of their own. -/
theorem connected_coverActions (automaton : String) (actions : List String) {m m' : Model}
    {u : Unit} (h : (coverActions automaton actions).Yields m u m') (hm : m.Connected live)
    (hquiet : ∀ action ∈ actions, ¬ IsDelivery action) :
    m'.Connected live ∧ m'.automata = m.automata := by
  induction actions generalizing m with
  | nil =>
    obtain ⟨-, rfl⟩ := Build.yields_pure.1 h
    exact ⟨hm, rfl⟩
  | cons action actions ih =>
    simp only [coverActions, Build.yields_bind, Build.yields_change] at h
    obtain ⟨_, m₁, hchange, hrest⟩ := h
    obtain ⟨c, hc, hwired⟩ := hm
    obtain ⟨c', hadd, rfl⟩ := changeComposition_ok hc hchange
    rw [List.forall_mem_cons] at hquiet
    obtain ⟨hm', hautomata⟩ := ih hrest ⟨c', rfl, (hwired.addSync hquiet.1 hadd).congr rfl⟩ hquiet.2
    exact ⟨hm', hautomata⟩

/-- Vectors are added for quiet actions only: all others have one. -/
theorem connected_coverAutomata (automata : List Automaton) {m m' : Model} {u : Unit}
    (h : (coverAutomata automata).Yields m u m') (hm : m.Connected live)
    (hfits : ∀ a ∈ automata, a.Fits live) : m'.Connected live ∧ m'.automata = m.automata := by
  induction automata generalizing m with
  | nil =>
    obtain ⟨-, rfl⟩ := Build.yields_pure.1 h
    exact ⟨hm, rfl⟩
  | cons a automata ih =>
    obtain ⟨c, hc, hwired⟩ := hm
    simp only [coverAutomata, Build.yields_bind, Build.yields_get, Build.yields_ofResult,
      requireComposition] at h
    obtain ⟨_, _, ⟨rfl, rfl⟩, c', _, ⟨hfound, rfl⟩, _, m₁, hcover, hrest⟩ := h
    rw [hc] at hfound
    cases hfound
    rw [List.forall_mem_cons] at hfits
    obtain ⟨hm₁, hautomata₁⟩ := connected_coverActions _ _ hcover ⟨c, hc, hwired⟩
      fun action haction => hwired.not_isDelivery_of_uncovered hfits.1 haction
    obtain ⟨hm', hautomata⟩ := ih hrest hm₁ hfits.2
    exact ⟨hm', hautomata.trans hautomata₁⟩

/-- Completing a composition keeps a model connected. -/
theorem connected_completeComposition {m m' : Model} {u : Unit}
    (h : completeComposition.Yields m u m') (hm : m.Connected live) :
    m'.Connected live ∧ m'.automata = m.automata := by
  simp only [completeComposition, Build.yields_bind, Build.yields_get, Build.yields_ofResult] at h
  obtain ⟨_, _, ⟨rfl, rfl⟩, _, _, ⟨-, rfl⟩, hcover⟩ := h
  obtain ⟨c, hc, hwired⟩ := hm
  exact connected_coverAutomata _ hcover ⟨c, hc, hwired⟩ hwired.fits

/-- Setting a composition that wires a model connects it. -/
theorem connected_setComposition {c : Composition} {m m' : Model} {u : Unit}
    (h : (setComposition c).Yields m u m') (hm : m.Wired live c) :
    m'.Connected live ∧ m'.automata = m.automata := by
  simp only [setComposition, Build.yields_bind, Build.yields_get, Build.yields_ofResult,
    Build.yields_modify] at h
  obtain ⟨_, _, ⟨rfl, rfl⟩, _, _, ⟨-, rfl⟩, _, _, rfl, hcomplete⟩ := h
  obtain ⟨hm', hautomata⟩ := connected_completeComposition hcomplete ⟨c, rfl, hm.congr rfl⟩
  exact ⟨hm', hautomata⟩

end Model

end ChartNet
