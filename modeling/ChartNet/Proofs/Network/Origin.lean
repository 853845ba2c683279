import ChartNet.Proofs.Network.Delivery

/-!
# Origin of edges

Where the edges of a compiled descriptor come from. Charts give automata; composing events takes
edges away and adds buffers, and expanding random assignments replaces each edge by others. So every
edge of the final model that is not one of a buffer **stems** from an edge of a compiled chart, from
which it was expanded.
-/

namespace ChartNet

/-- Every automaton that charts add is a compiled one. -/
theorem Descriptor.compiled_addCharts {setting : Setting} (cs : List Chart) {es es' : Events}
    {m m' : Model} (h : (addCharts setting es cs).Yields m es' m') :
    ∀ a ∈ m'.automata, a ∈ m.automata ∨
      ∃ c ∈ cs, ∃ es es', (c.compile setting).Yields es a es' := by
  induction cs generalizing es m with
  | nil =>
    obtain ⟨rfl, rfl⟩ := yields_addCharts_nil.1 h
    exact fun a ha => .inl ha
  | cons c cs ih =>
    obtain ⟨a, es₁, hcompile, -, hrest⟩ := yields_addCharts_cons.1 h
    intro b hb
    rcases ih hrest b hb with hb | ⟨c', hc', hcompiled⟩
    · rcases List.mem_append.1 hb with hb | hb
      · exact .inl hb
      · obtain rfl := List.mem_singleton.1 hb
        exact .inr ⟨c, List.mem_cons_self, es, es₁, hcompile⟩
    · exact .inr ⟨c', List.mem_cons_of_mem _ hc', hcompiled⟩

/-- After all automata were expanded, each is the expansion of one of them. -/
theorem Model.expanded_expandAutomata {n : Size} {all : List Automaton} (automata : List Automaton)
    {m m' : Model} {u : Unit} (h : (expandAutomata n automata).Yields m u m')
    (hall : ∀ a ∈ automata, a ∈ all)
    (hm : ∀ b ∈ m.automata, (∃ a ∈ all, a.expandDraws n = .ok b) ∨ b.name ∈ automata.map (·.name)) :
    ∀ b ∈ m'.automata, ∃ a ∈ all, a.expandDraws n = .ok b := by
  induction automata generalizing m with
  | nil =>
    obtain rfl := yields_expandAutomata_nil.1 h
    simpa using hm
  | cons a automata ih =>
    obtain ⟨-, a', hexpand, hrest⟩ := yields_expandAutomata_cons.1 h
    rw [List.forall_mem_cons] at hall
    refine ih hrest hall.2 fun b' hb' => ?_
    obtain ⟨b, hb, rfl⟩ := List.mem_map.1 hb'
    split
    · exact .inl ⟨a, hall.1, hexpand⟩
    · -- what keeps its automaton was expanded before or is still to come
      rename_i hne
      rw [(Automaton.expandDraws_ok hexpand).1] at hne
      refine (hm b hb).imp_right fun hname => ?_
      rcases List.mem_cons.1 hname with heq | hname
      · exact absurd (by simpa using heq) hne
      · exact hname

namespace Descriptor

variable {d : Descriptor} {charts : Charts} {m : Model} {json : Json}

/-- An edge **stems** from an edge of a chart: it is one of those that the edge becomes. -/
def Stems (d : Descriptor) (charts : Charts) (e' : Edge) : Prop :=
  ∃ entry ∈ d.charts, ∃ c, chartOf charts entry = .ok c ∧
    ∃ m₀ es a es', (c.compile (d.setting m₀)).Yields es a es' ∧
      ∃ e ∈ a.edges, ∃ id expanded, e.expandDraws d.randomOptions id = .ok expanded ∧ e' ∈ expanded

/-- **Without a composition of its own, a descriptor becomes a connected model whose edges stem from
its charts**, except for those of the buffers. -/
theorem stems_compile (hcomposition : d.composition = none) (h : d.compile charts = .ok (m, json)) :
    ∃ live c, m.composition = some c ∧ m.Wired live c ∧
      ∀ a ∈ m.automata, a.name ∉ live.map (·.name) → ∀ e ∈ a.edges, d.Stems charts e := by
  obtain ⟨events, m₁, live, m₂, m₃, c₀, m₄, m₅, m₆, hregister, hlive, hvars, hcompose, hset,
    hexpand, hautomata, hsame⟩ := phases_compile hcomposition h
  obtain ⟨m₀, es₀, found, hempty, -, hfound, hadd⟩ := yields_register hregister
  have hcharted := charted_register hregister
  have hwired := Model.wired_composeEvents hcharted hlive hvars hcompose
  obtain ⟨hconnected, hautomata₅⟩ := Model.connected_setComposition hset hwired
  have hfinal := (Model.connected_expandDraws hexpand hconnected).congr hautomata hsame
  obtain ⟨c, hc, hfinal⟩ := hfinal
  refine ⟨live, c, hc, hfinal, fun a ha hname e' he' => ?_⟩
  -- back through the expansion
  obtain ⟨c₅, hc₅, hwired₅⟩ := hconnected
  obtain ⟨m₇, hexpanded, hcomplete⟩ := Model.yields_expandDraws_of_some hexpand hc₅
  have hconnected₇ := Model.connected_expandAutomata _ _ hexpanded ⟨c₅, hc₅, hwired₅⟩ hwired₅.fits
  rw [hautomata, (Model.connected_completeComposition hcomplete hconnected₇).2] at ha
  obtain ⟨a₅, ha₅, hexpand₅⟩ := Model.expanded_expandAutomata m₅.automata hexpanded (fun _ h => h)
    (fun b hb => .inr (List.mem_map_of_mem hb)) a ha
  obtain ⟨e, he, id, expanded, hedge, hmem⟩ := Automaton.exists_of_mem_expandDraws hexpand₅ he'
  rw [(Automaton.expandDraws_ok hexpand₅).1] at hname
  -- back through the composition, which only adds buffers
  obtain ⟨-, hnames, -, hkept⟩ := Model.liveEvents_spec _ hlive
  have hnodup : m₃.names.Nodup := by
    rw [Model.names, hvars, ← Model.names, hnames]
    exact hcharted.nodup
  have hm₄ : m₄.automata = m₃.automata ++ live.map (·.buffer) := by
    obtain ⟨c₁, -, hbuffers⟩ : ∃ c₁, Composition.ofElements m₃.names = .ok c₁ ∧
        (Model.addBuffers c₁ live).Yields m₃ c₀ m₄ := by
      simpa [Model.composeEvents, Model.names] using hcompose
    exact (Model.addBuffers_spec _ hbuffers hnodup).1
  rw [hautomata₅, hm₄, hvars] at ha₅
  rcases List.mem_append.1 ha₅ with ha₅ | ha₅
  · -- and back to the charts
    obtain ⟨a₁, ha₁, -, hedges⟩ := hkept a₅ ha₅
    rcases compiled_addCharts found hadd a₁ ha₁ with ha₁ | ⟨chart, hchart, es, es', hcompile⟩
    · simp [hempty] at ha₁
    · obtain ⟨entry, hentry, hchartOf⟩ :=
        exists_of_mem_forall₂ (Result.mapM_eq_ok.1 hfound) hchart
      exact ⟨entry, hentry, chart, hchartOf, m₀, es, a₁, es', hcompile, e, (hedges e he).1, id,
        expanded, hedge, hmem⟩
  · obtain ⟨event, hevent, rfl⟩ := List.mem_map.1 ha₅
    exact absurd (List.mem_map.2 ⟨event, hevent, event.name_buffer.symm⟩) hname

end Descriptor

end ChartNet
