import ChartNet.Proofs.Order.Alone
import ChartNet.Proofs.Order.Stages

/-!
# Charts in any order

When all events that charts name are declared, the order of the charts does not matter
(`Descriptor.compile_perm`). Each chart gives the automaton that it gives alone, so the automata of
a model are the same and only stand in another order; the registered events are alike one by one, so
they bring the same variables and buffers; and without a composition of its own the model has the
same joints.
-/

namespace ChartNet

/-- The automata of charts that were read are those of their entries. -/
private theorem map_charts {charts : Charts} {entries : List ChartEntry} {found : List Chart}
    (h : List.Forall₂ (fun entry c => Descriptor.chartOf charts entry = .ok c) entries found)
    (f : Chart → Automaton) (other : Automaton) :
    found.map f =
      entries.map fun entry => ((Descriptor.chartOf charts entry).toOption.map f).getD other := by
  induction h with
  | nil => rfl
  | cons hc _ ih => rw [List.map_cons, List.map_cons, ih, hc]; rfl

/-- A model can be written if each of its parts can. -/
theorem Model.exists_toJson_iff {m : Model} :
    (∃ json, m.toJson = .ok json) ↔ (∃ c, m.composition = some c) ∧
      (∀ v ∈ m.vars, ∃ json, v.toJson m.constantValues = .ok json) ∧
      (∀ c ∈ m.constants, ∃ json, c.toJson m.constantValues = .ok json) ∧
      (∀ a ∈ m.automata, ∃ json, a.toJson m.constantValues = .ok json) ∧
      ∀ p ∈ m.properties, ∃ json, Property.toJson m.constantValues p = .ok json := by
  have hcomposition : (∃ c, m.requireComposition = .ok c) ↔ ∃ c, m.composition = some c := by
    unfold requireComposition
    cases m.composition <;> simp [failModel]
  rw [← hcomposition, ← Result.exists_mapM_eq_ok, ← Result.exists_mapM_eq_ok,
    ← Result.exists_mapM_eq_ok, ← Result.exists_mapM_eq_ok]
  simp only [toJson, Result.bind_eq_ok]
  constructor
  · rintro ⟨_, c, hc, vars, hvars, constants, hconstants, automata, hautomata, ps, hps, -⟩
    exact ⟨⟨c, hc⟩, ⟨vars, hvars⟩, ⟨constants, hconstants⟩, ⟨automata, hautomata⟩, ps, hps⟩
  · rintro ⟨⟨c, hc⟩, ⟨vars, hvars⟩, ⟨constants, hconstants⟩, ⟨automata, hautomata⟩, ps, hps⟩
    exact ⟨_, c, hc, vars, hvars, constants, hconstants, automata, hautomata, ps, hps, rfl⟩

namespace Descriptor

variable {d : Descriptor} {charts : Charts} {entries : List ChartEntry}

/-- All events that the charts of a descriptor name are **declared** in it. -/
def DeclaresAll (d : Descriptor) (charts : Charts) : Prop :=
  ∀ entry ∈ d.charts, ∀ c, chartOf charts entry = .ok c →
    ∀ event ∈ c.events, event ∈ d.events.map (·.name)

section Perm

variable (hperm : entries.Perm d.charts) (hdeclared : d.DeclaresAll charts)

include hperm hdeclared

/-- **All charts compile in one order if they do in the other**, each to the same automaton, and
register the same events. -/
theorem register_perm {es : Events} {m : Model} (h : (d.register charts).Yields d.start es m) :
    ∃ es' as', ({ d with charts := entries }.register charts).Yields d.start es'
        { m with automata := as' } ∧
      Reordered charts d.charts entries m.automata as' ∧
      List.Forall₂ Event.Alike es.all es'.all := by
  obtain ⟨m₀, es₀, found, hglobals, hes₀, hfound, hadd⟩ := yields_declareGlobals.1 h
  have hempty : m₀.automata = [] := (keeps_declareGlobals d _ _ _ hglobals).1
  obtain ⟨hbare, hevents⟩ := declares_declaredEvents hes₀
  have hn := (declaredEvents_spec hes₀).1
  have hcharts := Result.mapM_eq_ok.1 hfound
  obtain ⟨found', hcharts', hperm'⟩ := List.perm_comp_forall₂ hperm hcharts
  have hclosed : ∀ c ∈ found, c.Closed es₀ := fun c hc event hevent => by
    obtain ⟨entry, hentry, hchart⟩ := exists_of_mem_forall₂ hcharts hc
    exact hevents event (hdeclared entry hentry c hchart event hevent)
  -- nobody is registered before the first chart
  have hmembers : ∀ role event x, es₀.Registers role event x → x ∈ m₀.names :=
    fun role event x hx => absurd hx (Events.not_registers_of_bare hbare)
  obtain ⟨hall, hnodup, -⟩ := alone_of_addCharts hn hbare found hclosed hbare hmembers hadd
  have : Nonempty (Automaton × Events) := ⟨({ name := "" }, {})⟩
  choose! alone halone using hall
  have hnew : ∀ cs : List Chart, ∀ c ∈ cs, c.name ∉ m₀.names := by simp [Model.names, hempty]
  -- each chart compiles as it does alone, in the one order and in the other
  obtain ⟨es₁, hadd₁, hes₁, hregisters₁⟩ :=
    addCharts_of_alone hn hbare found hclosed alone halone hbare
    hmembers hnodup (hnew found)
  obtain ⟨rfl, rfl⟩ := hadd.unique hadd₁
  obtain ⟨es', hadd', hes', hregisters'⟩ := addCharts_of_alone hn hbare found'
    (fun c hc => hclosed c (hperm'.mem_iff.1 hc)) alone
    (fun c hc => halone c (hperm'.mem_iff.1 hc)) hbare hmembers
    ((hperm'.map _).nodup_iff.2 hnodup) (hnew found')
  refine ⟨es', _, yields_declareGlobals.2
    ⟨m₀, es₀, found', hglobals, hes₀, Result.mapM_eq_ok.2 hcharts', hadd'⟩,
    ⟨fun entry => ((chartOf charts entry).toOption.map fun c => (alone c).1).getD { name := "" },
      [], ?_, ?_, ?_⟩, Events.forall₂_alike ?_ (hes₁.trans hes'.symm) ?_⟩
  · intro entry hentry c hc
    obtain ⟨c', hc', hchart⟩ := exists_of_mem_forall₂ hcharts.flip hentry
    obtain rfl := Except.ok.inj (hc.symm.trans hchart)
    simp only [hc, Except.toOption, Option.map_some, Option.getD_some]
    exact (Chart.compile_parts (halone c hc')).2.1
  · simp only [hempty, List.nil_append, List.append_nil]
    exact map_charts hcharts _ _
  · simp only [hempty, List.nil_append, List.append_nil]
    exact map_charts hcharts' _ _
  · rwa [← Events.names_bare, hes₁]
  · intro role event x
    rw [hregisters₁, hregisters']
    simp only [hperm'.mem_iff]

/-- If a descriptor compiles, it compiles with its charts in another order. -/
private theorem compile_perm_of {m : Model} {json : Json} (h : d.compile charts = .ok (m, json)) :
    ∃ m' json', ({ d with charts := entries } : Descriptor).compile charts = .ok (m', json') ∧
      Reordered charts d.charts entries m.automata m'.automata ∧ m'.vars = m.vars ∧
      ∃ c c', m.composition = some c ∧ m'.composition = some c' ∧
        (d.composition = none → c.joints = c'.joints) := by
  obtain ⟨⟨es, m₁, hregister, hconnect⟩, hjson⟩ := compile_eq_ok.1 h
  obtain ⟨es', as', hregister', hm₁, halike⟩ := register_perm hperm hdeclared hregister
  have hcharted := charted_register hregister
  have hmembers : ∀ e ∈ es.all, ∀ role, ∀ x ∈ (e.members role).map (·.1), x ∈ m₁.names :=
    fun e he role x hx => hcharted.members ⟨e, Events.get?_of_mem hcharted.events he, hx⟩
  obtain ⟨as₁, k, k', hk, hconnect', hm, hjoints⟩ :=
    connect_perm hperm hm₁ halike hcharted.nodup hmembers hconnect
  obtain ⟨-, hvars, hconstants, hautomata, hproperties⟩ := Model.exists_toJson_iff.1 ⟨json, hjson⟩
  obtain ⟨json', hjson'⟩ : ∃ json',
      ({ m with automata := as₁, composition := some k' } : Model).toJson = .ok json' :=
    Model.exists_toJson_iff.2 ⟨⟨k', rfl⟩, hvars, hconstants,
      fun a ha => hautomata a ((hm.perm hperm).mem_iff.1 ha), hproperties⟩
  exact ⟨_, json', compile_eq_ok.2 ⟨⟨es', _, hregister', hconnect'⟩, hjson'⟩, hm, rfl, k, k', hk,
    rfl, hjoints⟩

end Perm

/-- **With declared events the order of the charts does not matter.** If every event that a chart
names is declared, then all charts compile in one order if and only if they do in the other, each to
the same automaton; and the descriptor is accepted in one order if and only if it is in the other,
again with the same automata, with the same list of global variables, and, unless it has a
composition of its own, with the same joints. -/
theorem compile_perm (hperm : entries.Perm d.charts) (hdeclared : d.DeclaresAll charts) :
    ((∃ es m, (d.register charts).Yields d.start es m) ↔
      ∃ es m, ({ d with charts := entries }.register charts).Yields d.start es m) ∧
    (∀ es m es' m', (d.register charts).Yields d.start es m →
      ({ d with charts := entries }.register charts).Yields d.start es' m' →
      Reordered charts d.charts entries m.automata m'.automata) ∧
    ((∃ r, d.compile charts = .ok r) ↔
      ∃ r, ({ d with charts := entries } : Descriptor).compile charts = .ok r) ∧
    ∀ m json m' json', d.compile charts = .ok (m, json) →
      ({ d with charts := entries } : Descriptor).compile charts = .ok (m', json') →
      Reordered charts d.charts entries m.automata m'.automata ∧ m'.vars = m.vars ∧
      ∃ c c', m.composition = some c ∧ m'.composition = some c' ∧
        (d.composition = none → c.joints = c'.joints) := by
  have hdeclared' : ({ d with charts := entries } : Descriptor).DeclaresAll charts :=
    fun entry hentry => hdeclared entry (hperm.mem_iff.1 hentry)
  refine ⟨⟨?_, ?_⟩, ?_, ⟨?_, ?_⟩, ?_⟩
  · rintro ⟨es, m, h⟩
    obtain ⟨es', as', h', -⟩ := register_perm hperm hdeclared h
    exact ⟨es', _, h'⟩
  · rintro ⟨es, m, h⟩
    obtain ⟨es', as', h', -⟩ := register_perm hperm.symm hdeclared' h
    exact ⟨es', _, h'⟩
  · intro es m es' m' h h'
    obtain ⟨es₁, as₁, h₁, hm, -⟩ := register_perm hperm hdeclared h
    obtain ⟨-, rfl⟩ := h'.unique h₁
    exact hm
  · rintro ⟨⟨m, json⟩, h⟩
    obtain ⟨m', json', h', -⟩ := compile_perm_of hperm hdeclared h
    exact ⟨_, h'⟩
  · rintro ⟨⟨m, json⟩, h⟩
    obtain ⟨m', json', h', -⟩ := compile_perm_of hperm.symm hdeclared' h
    exact ⟨_, h'⟩
  · intro m json m' json' h h'
    obtain ⟨m₁, json₁, h₁, hsame⟩ := compile_perm_of hperm hdeclared h
    obtain ⟨rfl, rfl⟩ := Prod.mk.inj (Except.ok.inj (h'.symm.trans h₁))
    exact hsame

/-- Two robots that send each other declared events, in both orders. -/
theorem compile_perm_of_robots :
    let robots : Descriptor :=
      { name := "network", capacity := .whole 1, randomOptions := .whole 1
        events := [{ name := "ping", fields := [("n", "int32")] }, { name := "pong", fields := [] }]
        charts := [
          .inline
            { name := "left", initial := "idle"
              states := [{ id := "idle", transitions := some [
                { goal := .single "busy"
                    (some [.send "ping" (some [{ name := "n", expr := "1" }])]) }] },
                { id := "busy", transitions := some [
                { event := some "pong", goal := .single "idle" none }] }] },
          .inline
            { name := "right", initial := "idle"
              datamodel := some [{ id := "x", type := "int32" }]
              states := [{ id := "idle", transitions := some [
                { event := some "ping"
                  goal := .single "idle"
                    (some [.assign "x" "_event.data.n", .send "pong" none]) }] }] }] }
    ∃ m json m' json', robots.compile = .ok (m, json) ∧
      ({ robots with charts := robots.charts.reverse } : Descriptor).compile = .ok (m', json') ∧
      Reordered [] robots.charts robots.charts.reverse m.automata m'.automata ∧ m'.vars = m.vars ∧
      ∃ c c', m.composition = some c ∧ m'.composition = some c' ∧ c.joints = c'.joints := by
  intro robots
  have hdeclared : robots.DeclaresAll [] := by
    intro entry hentry c hc
    simp only [robots, List.mem_cons, List.not_mem_nil, or_false] at hentry
    rcases hentry with rfl | rfl <;> cases hc <;> decide +kernel
  let reversed : Descriptor := { robots with charts := robots.charts.reverse }
  obtain ⟨hleft, hright⟩ : (robots.compile.toOption.any fun _ => true) ∧
      reversed.compile.toOption.any fun _ => true := by
    decide +kernel
  obtain ⟨⟨m, json⟩, h, -⟩ := Result.exists_of_any hleft
  obtain ⟨⟨m', json'⟩, h', -⟩ := Result.exists_of_any hright
  obtain ⟨hautomata, hvars, c, c', hc, hc', hjoints⟩ :=
    (compile_perm (List.reverse_perm robots.charts) hdeclared).2.2.2 m json m' json' h h'
  exact ⟨m, json, m', json', h, h', hautomata, hvars, c, c', hc, hc', hjoints rfl⟩

end Descriptor

end ChartNet
