import ChartNet.Proofs.Chart.Probabilities
import ChartNet.Proofs.Network.Stages
import ChartNet.Proofs.Network.Targets
import ChartNet.Proofs.Random.Elimination
import ChartNet.Proofs.Random.Outcomes

/-!
# Probabilities in compiled descriptors

Every edge of a model comes with probabilities of one of three kinds. The edge of a transition has
those of its targets; moving draws to edges of their own only shortens its destinations, so none is
lost, repeated or moved. The edge of a draw has the same probability for every option. All other
edges are certain (`Descriptor.probabilities_compile`).
-/

namespace ChartNet

/-! ### Moving draws -/

/-- A destination **stays** when draws are moved away: it is the same, or it ends in a new location
before its first draw. -/
def Destination.StaysAs (d d' : Destination) : Prop :=
  d' = d ∨ ∃ l, d' =
    { d with location := some l, assignments := d.assignments.takeWhile (!·.value.isRandom) }

theorem Destination.StaysAs.probability {d d' : Destination} (h : d.StaysAs d') :
    d'.probability = d.probability := by
  rcases h with rfl | ⟨l, rfl⟩ <;> rfl

/-- An edge **draws evenly** if it has no action and a destination for each option of an assignment,
all with the same probability. -/
def Edge.DrawsEvenly (n : Size) (e : Edge) : Prop :=
  e.action = none ∧ ∃ a : Assignment, a.value.isRandom = true ∧
    let options := a.value.draws n
    1 ≤ options.length ∧
      e.destinations.map (·.assignments) =
        options.map (fun value => [({ ref := a.ref, value } : Assignment)]) ∧
      e.destinations.map (·.probability) =
        List.replicate options.length (.real (1 / Float.ofNat options.length))

/-- A value has at least one option. -/
theorem Expr.one_le_length_draws {n : Size} (hn : n.isPositive = true) (e : Expr) :
    1 ≤ (e.draws n).length := by
  cases n with
  | other x => cases hn
  | whole n =>
    have hpos : 0 < n := by simpa [Size.isPositive] using hn
    rw [draws_eq_map_plug, List.length_map, length_combinations]
    exact Nat.pow_pos hpos

section Expansion

variable {n : Size}

/-- A draw leads to a location. -/
theorem location_drawAll_ne_none {target : String} {as : List Assignment}
    (h : ∃ a ∈ as, a.value.isRandom) (id : String) (d i : Nat) :
    (drawAll n target id d i as).location ≠ none := by
  intro hnone
  have hlocation : ((drawAll n target id d i as).location <|> some target) =
      (drawAll n target id d i as).location := location_drawAll_of_isRandom h id d i
  rw [hnone] at hlocation
  cases hlocation

/-- Draws are even, and what comes after them is certain. -/
theorem drawAll_even (hn : n.isPositive = true) {target : String} (as : List Assignment)
    (id : String) (d i : Nat) :
    ∀ e ∈ (drawAll n target id d i as).edges, e.Certain ∨ e.DrawsEvenly n := by
  intro e he
  rcases eq_of_mem_drawAll as id d i e he with ⟨a, -, ha, source, after, rfl⟩ | ⟨_, _, _, -, rfl⟩
  · refine .inr ⟨rfl, a, ha, a.value.one_le_length_draws hn, ?_, ?_⟩
    · simp [drawEdge, Function.comp_def]
    · simp [drawEdge, Function.comp_def, List.map_const']
  · exact .inl rfl

/-- **An edge keeps its destinations**, and becomes the edges of its draws otherwise. -/
theorem Edge.stays_expandDraws (hn : n.isPositive = true) {e : Edge} {id : String} {es : List Edge}
    (haction : e.action ≠ none) (hes : e.expandDraws n id = .ok es) :
    ∃ e' rest, es = e' :: rest ∧ e'.location = e.location ∧ e'.action = e.action ∧
      List.Forall₂ Destination.StaysAs e.destinations e'.destinations ∧
      ∀ x ∈ rest, x.Certain ∨ x.DrawsEvenly n := by
  obtain ⟨parts, hparts, rfl⟩ := (Edge.expandDraws_eq_ok haction).1 hes
  have hpart : ∀ (d : Destination × Nat) part, e.expandDestination n id d.2 d.1 = .ok part →
      d.1.StaysAs part.1 ∧ ∀ x ∈ part.2, x.Certain ∨ x.DrawsEvenly n := by
    rintro ⟨d, k⟩ part hexpand
    rcases Edge.expandDestination_eq_ok.1 hexpand with ⟨-, rfl⟩ | ⟨hrandom, target, -, rfl⟩
    · exact ⟨.inl rfl, by simp⟩
    · obtain ⟨l, hl⟩ := Option.ne_none_iff_exists'.1 (location_drawAll_ne_none hrandom id k 0)
      exact ⟨.inr ⟨l, by rw [assignments_drawAll, hl]; rfl⟩, drawAll_even hn _ _ _ _⟩
  refine ⟨_, _, rfl, rfl, rfl, ?_, List.forall_mem_flatMap.2 fun part hmem => ?_⟩
  · have hzip : e.destinations = e.destinations.zipIdx.map (·.1) := (List.zipIdx_map_fst 0 _).symm
    rw [hzip, List.forall₂_map_left_iff, List.forall₂_map_right_iff]
    exact hparts.imp fun d part hexpand => (hpart d part hexpand).1
  · obtain ⟨d, -, hexpand⟩ := exists_of_mem_forall₂ hparts hmem
    exact (hpart d part hexpand).2

end Expansion

/-! ### Transitions -/

/-- An edge **realises** a transition of a state of a chart: it has the location and the action of
the transition, the probabilities of its targets, and a destination for each target, which is that
of the body of the target up to its first draw. -/
structure Chart.Realises (c : Chart) (constants : Constants) (s : State) (t : Transition)
    (e : Edge) :
    Prop where
  location : e.location = s.id
  action : e.action = some (transitionAction s.id t)
  probabilities : ∃ ps, targetProbabilities constants t.goal.targets = .ok ps ∧ AddUp ps ∧
    e.destinations.map (·.probability) = ps.map Expr.real
  destinations : ∃ (ways : List Way) (scope : BodyScope) (es es' : Events) (found : List Body),
    c.ways constants t = .ok ways ∧ ways.map (·.target) = t.goal.targets ∧
      (bodies scope s t 0 ways).Yields es found es' ∧
      List.Forall₂ (fun b d => b.head.StaysAs d) found e.destinations

/-- Destinations that stay have the same probabilities. -/
theorem probabilities_of_stay {ds ds' : List Destination}
    (h : List.Forall₂ Destination.StaysAs ds ds') :
    ds'.map (·.probability) = ds.map (·.probability) := by
  induction h with
  | nil => rfl
  | cons hd _ ih => simp [hd.probability, ih]

/-- The edge of a transition still realises it when draws were moved away. -/
theorem Chart.Belongs.realises {c : Chart} {setting : Setting} {s : State} {t : Transition}
    {e e' : Edge} (h : c.Belongs setting s t e) (hlocation : e'.location = e.location)
    (haction : e'.action = e.action)
    (hstay : List.Forall₂ Destination.StaysAs e.destinations e'.destinations) :
    c.Realises setting.constants s t e' where
  location := hlocation.trans h.location
  action := haction.trans h.action
  probabilities := by
    obtain ⟨ps, hps, hprobabilities⟩ := h.probabilities
    exact ⟨ps, hps, (addUp_of_targetProbabilities hps).2,
      (probabilities_of_stay hstay).trans hprobabilities⟩
  destinations := by
    obtain ⟨a, ways, es, es', found, hways, hfound, hdestinations⟩ := h.destinations
    obtain ⟨ps, -, htargets, -⟩ := Chart.ways_ok hways
    rw [hdestinations, List.forall₂_map_left_iff] at hstay
    exact ⟨ways, _, es, es', found, hways, htargets, hfound, hstay⟩

/-- What is certain stays so, up to its draws. -/
theorem Edge.Certain.expandDraws {n : Size} (hn : n.isPositive = true) {e : Edge} {id : String}
    {es : List Edge} (he : e.Certain) (haction : e.action ≠ none)
    (hes : e.expandDraws n id = .ok es) :
    ∀ e' ∈ es, e'.Certain ∨ e'.DrawsEvenly n := by
  obtain ⟨e', rest, rfl, -, -, hstay, hrest⟩ := Edge.stays_expandDraws hn haction hes
  exact List.forall_mem_cons.2 ⟨.inl ((probabilities_of_stay hstay).trans he), hrest⟩

/-- What a chart accounts for becomes edges of the three kinds. -/
theorem Chart.Accounts.expandDraws {c : Chart} {setting : Setting} {n : Size}
    (hn : n.isPositive = true) {e : Edge} {id : String} {es : List Edge} (he : c.Accounts setting e)
    (haction : e.action ≠ none) (hes : e.expandDraws n id = .ok es) :
    ∀ e' ∈ es, (∃ s ∈ c.states, ∃ t ∈ s.transitions.getD [], c.Realises setting.constants s t e') ∨
      e'.Certain ∨ e'.DrawsEvenly n := by
  rcases he with ⟨s, hs, t, ht, hbelongs⟩ | hcertain
  · obtain ⟨e', rest, rfl, hlocation, haction', hstay, hrest⟩ :=
      Edge.stays_expandDraws hn haction hes
    exact List.forall_mem_cons.2
      ⟨.inl ⟨s, hs, t, ht, hbelongs.realises hlocation haction' hstay⟩,
        fun x hx => .inr (hrest x hx)⟩
  · exact fun e' he' => .inr (hcertain.expandDraws hn haction hes e' he')

/-- Each edge of an automaton becomes edges of its expansion. -/
theorem Automaton.exists_expandDraws_of_mem {n : Size} {a a' : Automaton}
    (h : a.expandDraws n = .ok a') {e : Edge} (he : e ∈ a.edges) :
    ∃ id es, e.expandDraws n id = .ok es ∧ ∀ e' ∈ es, e' ∈ a'.edges := by
  simp only [expandDraws, Result.bind_eq_ok] at h
  obtain ⟨parts, hparts, ha'⟩ := h
  cases ha'
  obtain ⟨i, hi, rfl⟩ := List.getElem_of_mem he
  have hi' : i < (edgeIds a.edges).length := by simpa [edgeIds, numberRepeated] using hi
  have hzip : (a.edges[i], (edgeIds a.edges)[i]) ∈ a.edges.zip (edgeIds a.edges) := by
    rw [← List.getElem_zip (h := by rw [List.length_zip]; omega)]
    exact List.getElem_mem _
  obtain ⟨es, hes, hexpand⟩ := exists_of_mem_forall₂ (Result.mapM_eq_ok.1 hparts).flip hzip
  refine ⟨_, es, hexpand, fun e' he' => ?_⟩
  simp only [replaceEdges, edges_addEdges, List.nil_append]
  exact List.mem_flatten.2 ⟨es, hes, he'⟩

/-- Buffers are certain. -/
theorem Event.certain_buffer (e : Event) : ∀ b ∈ e.buffer.edges, b.Certain := by
  rw [edges_buffer]
  split <;> simp [Edge.Certain]

/-! ### Compiled descriptors -/

namespace Descriptor

variable {d : Descriptor} {charts : Charts} {m : Model} {json : Json}

/-- The number of options is positive in a model that is connected. -/
theorem isPositive_of_connect {es : Events} {m m' : Model} (h : (d.connect es).Yields m () m') :
    d.randomOptions.isPositive = true := by
  obtain ⟨-, -, -, -, m₃, m₄, -, -, -, hexpand, -⟩ := yields_connect.1 h
  exact (Model.yields_expandDraws.1 hexpand).1.1

/-- Every chart that is added has its automaton. -/
theorem exists_compiled_addCharts {setting : Setting} (cs : List Chart) {es es' : Events}
    {m m' : Model} (h : (addCharts setting es cs).Yields m es' m') :
    (∀ a ∈ m.automata, a ∈ m'.automata) ∧
      ∀ c ∈ cs, ∃ a ∈ m'.automata, ∃ es es', (c.compile setting).Yields es a es' := by
  induction cs generalizing es m with
  | nil =>
    obtain ⟨-, rfl⟩ := yields_addCharts_nil.1 h
    simp
  | cons c cs ih =>
    obtain ⟨a, es₁, hcompile, -, hrest⟩ := yields_addCharts_cons.1 h
    obtain ⟨hkept, hcompiled⟩ := ih hrest
    have hown : a ∈ m'.automata := hkept a (by simp)
    exact ⟨fun b hb => hkept b (by simp [hb]),
      List.forall_mem_cons.2 ⟨⟨a, hown, es, es₁, hcompile⟩, hcompiled⟩⟩

/-- **Probability is conserved by the whole compilation.** Every edge of a compiled model realises a
transition of the chart of its automaton, is certain, or draws evenly. And every transition of a
chart is realised by an edge of its automaton, unless it receives an event that nobody sends. -/
theorem probabilities_compile (h : d.compile charts = .ok (m, json)) :
    (∀ a ∈ m.automata, ∀ e ∈ a.edges,
      (∃ entry ∈ d.charts, ∃ c, chartOf charts entry = .ok c ∧ c.name = a.name ∧
        ∃ s ∈ c.states, ∃ t ∈ s.transitions.getD [], c.Realises m.constantValues s t e) ∨
      e.Certain ∨ e.DrawsEvenly d.randomOptions) ∧
    ∃ es m₁, (d.register charts).Yields d.start es m₁ ∧
      ∀ entry ∈ d.charts, ∀ c, chartOf charts entry = .ok c →
        ∀ s ∈ c.states, ∀ t ∈ s.transitions.getD [],
          Chart.transitionAction s.id t ∈ unsentActions es.all ∨
          ∃ a ∈ m.automata, a.name = c.name ∧ ∃ e ∈ a.edges, c.Realises m.constantValues s t e := by
  obtain ⟨es, m₁, hregister, hconnect⟩ := yields_of_compile h
  obtain ⟨m₀, es₀, found, hempty, hes₀, hfound, hadd⟩ := yields_register hregister
  have hn := isPositive_of_connect hconnect
  obtain ⟨buffers, hexpanded⟩ := automata_connect (charted_register hregister).nodup hconnect
  have hconstants : (d.setting m₀).constants = m.constantValues := by
    obtain ⟨-, hkept, -⟩ :=
      keepsTo_addCharts found (declaredEvents_spec hes₀).1 hadd (by simp [hempty])
    have hsame := (buildsOn_connect hconnect).1.constants.trans hkept
    simp [setting, Model.constantValues, hsame]
  refine ⟨fun a' ha' e' he' => ?_, es, m₁, hregister, fun entry hentry c hchart s hs t ht => ?_⟩
  · obtain ⟨a, ha, hexpand⟩ := exists_of_mem_forall₂ hexpanded ha'
    obtain ⟨e, he, id, expanded, hes, hmem⟩ := Automaton.exists_of_mem_expandDraws hexpand.draws he'
    rcases List.mem_append.1 ha with ha | ha
    · obtain ⟨a₁, ha₁, rfl⟩ := List.mem_map.1 ha
      have he₁ := (Automaton.mem_edges_without.1 he).1
      rcases compiled_addCharts found hadd a₁ ha₁ with ha₁ | ⟨c, hc, es₁, es₂, hcompile⟩
      · simp [hempty] at ha₁
      obtain ⟨entry, hentry, hchart⟩ := exists_of_mem_forall₂ (Result.mapM_eq_ok.1 hfound) hc
      have haccounts := (Chart.probabilities_of_compile hcompile).1 e he₁
      have hkinds := haccounts.expandDraws hn (Chart.action_of_compile hcompile e he₁) hes e' hmem
      rw [hconstants] at hkinds
      refine hkinds.imp_left fun hrealises => ⟨entry, hentry, c, hchart, ?_, hrealises⟩
      rw [(Automaton.expandDraws_ok hexpand.draws).1]
      exact (Chart.compile_parts hcompile).2.1.symm
    · obtain ⟨event, -, rfl⟩ := List.mem_map.1 ha
      exact .inr ((event.certain_buffer e he).expandDraws hn (event.action_buffer e he) hes e' hmem)
  · by_cases hunsent : Chart.transitionAction s.id t ∈ unsentActions es.all
    · exact .inl hunsent
    -- from the chart to its automaton, to the edge of the transition, and to what that becomes
    obtain ⟨c', hc', hchart'⟩ := exists_of_mem_forall₂ (Result.mapM_eq_ok.1 hfound).flip hentry
    obtain rfl := Except.ok.inj (hchart'.symm.trans hchart)
    obtain ⟨a, ha, es₁, es₂, hcompile⟩ := (exists_compiled_addCharts found hadd).2 c' hc'
    obtain ⟨e, he, hbelongs⟩ := (Chart.probabilities_of_compile hcompile).2 s hs t ht
    obtain ⟨a', ha', hexpand⟩ := exists_of_mem_forall₂ hexpanded.flip
      (List.mem_append_left _ (List.mem_map_of_mem ha))
    have hkept : e ∈ (a.without (unsentActions es.all)).edges := by
      refine Automaton.mem_edges_without.2 ⟨he, fun x hx heq => hunsent ?_⟩
      rwa [Option.some.inj (hbelongs.action.symm.trans heq)]
    obtain ⟨id, expanded, hes, hmem⟩ := Automaton.exists_expandDraws_of_mem hexpand.draws hkept
    obtain ⟨e', rest, rfl, hlocation, haction, hstay, -⟩ :=
      Edge.stays_expandDraws hn (Chart.action_of_compile hcompile e he) hes
    refine .inr ⟨a', ha', ?_, e', hmem e' List.mem_cons_self, ?_⟩
    · rw [(Automaton.expandDraws_ok hexpand.draws).1]
      exact (Chart.compile_parts hcompile).2.1
    · rw [← hconstants]
      exact hbelongs.realises hlocation haction hstay

/-- A transition with two targets, the first of which draws a value out of two: its edge keeps both
probabilities, the draw is even, and what comes after it is certain. -/
theorem probabilities_compile_of_draw :
    let robot : Descriptor :=
      { name := "network", capacity := .whole 1, randomOptions := .whole 2
        charts := [.inline
          { name := "robot", initial := "idle"
            datamodel := some [{ id := "x", type := "float64" }]
            states := [{ id := "idle", transitions := some [
              { goal := .several [
                  { target := "idle", prob := some (.number 0.25)
                    body := some [.assign "x" "Math.random()"] },
                  { target := "idle" }] }] }] }] }
    ∃ m json, robot.compile = .ok (m, json) ∧
      (m.automata.map fun a => a.edges.map fun e => e.destinations.map (·.probability)) =
        [[[.real 0.25, .real 0.75], [.real 0.5, .real 0.5], [.real 1]]] ∧
      ∀ a ∈ m.automata, ∀ e ∈ a.edges,
        (∃ entry ∈ robot.charts, ∃ c, chartOf [] entry = .ok c ∧ c.name = a.name ∧
          ∃ s ∈ c.states, ∃ t ∈ s.transitions.getD [], c.Realises m.constantValues s t e) ∨
        e.Certain ∨ e.DrawsEvenly robot.randomOptions := by
  intro robot
  have haccepted : (robot.compile.toOption.any fun r =>
      (r.1.automata.map fun a => a.edges.map fun e => e.destinations.map (·.probability)) ==
        [[[.real 0.25, .real 0.75], [.real 0.5, .real 0.5], [.real 1]]]) = true := by decide +kernel
  obtain ⟨⟨m, json⟩, hcompile, hprobabilities⟩ := Result.exists_of_any haccepted
  exact ⟨m, json, hcompile, beq_iff_eq.1 hprobabilities, (probabilities_compile hcompile).1⟩

end Descriptor

end ChartNet
