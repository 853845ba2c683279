import ChartNet.Proofs.Network.Stages
import ChartNet.Proofs.Random.Charts

/-!
# Elimination of distributions

Expanding an automaton **draws** every value that is assigned: the values of its edges have no
distribution afterwards, and neither have the initial values of its variables, which are checked.
Nothing else is expanded. Probabilities are numbers anyway; guards, what is assigned to, and the
types of variables keep the distributions with which their conditions, locations and bounds are
written in the chart (`Descriptor.drawn_compile`).
-/

namespace ChartNet

/-- The values that stand for a distribution have none. -/
theorem Expr.isRandom_of_mem_draws (n : Size) (e : Expr) : ∀ x ∈ e.draws n, x.isRandom = false := by
  induction e with
  | uniform l u => simp [draws, uniformDraws, Expr.real]
  | ident x | lit v | array v => simp [draws]
  | unary op a iha =>
    simp only [draws, List.forall_mem_map, isRandom_unary]
    exact iha
  | binary op a b iha ihb =>
    simp only [draws, List.forall_mem_flatMap, List.forall_mem_map, isRandom_binary,
      Bool.or_eq_false_iff]
    exact fun x hx y hy => ⟨iha x hx, ihb y hy⟩
  | ternary op a b c iha ihb ihc =>
    simp only [draws, List.forall_mem_flatMap, List.forall_mem_map, isRandom_ternary,
      Bool.or_eq_false_iff]
    exact fun x hx y hy z hz => ⟨⟨iha x hx, ihb y hy⟩, ihc z hz⟩
  | quaternary op a b c d iha ihb ihc ihd =>
    simp only [draws, List.forall_mem_flatMap, List.forall_mem_map, isRandom_quaternary,
      Bool.or_eq_false_iff]
    exact fun x hx y hy z hz w hw => ⟨⟨⟨iha x hx, ihb y hy⟩, ihc z hz⟩, ihd w hw⟩

/-! ### Drawn edges -/

/-- All values that an edge assigns are **drawn**. -/
def Edge.Drawn (e : Edge) : Prop :=
  ∀ d ∈ e.destinations, ∀ a ∈ d.assignments, a.value.isRandom = false

section Expansion

variable {n : Size} {conditions locations : List String}

/-- An edge with an action becomes drawn edges. -/
theorem Edge.drawn_expandDraws {e : Edge} {id : String} {es : List Edge} (haction : e.action ≠ none)
    (hes : e.expandDraws n id = .ok es) : ∀ e' ∈ es, e'.Drawn := by
  intro e' he'
  cases expandsInto_of_mem hes e' he' with
  | kept hnone => exact absurd hnone haction
  | own _ hds =>
    intro d' hd' a ha
    obtain ⟨d, -, -, hassignments⟩ := hds d' hd'
    exact isRandom_of_mem_settled (hassignments ▸ ha)
  | @draw d a =>
    refine List.forall_mem_map.2 fun value hvalue => List.forall_mem_singleton.2 ?_
    exact a.value.isRandom_of_mem_draws n value hvalue
  | continuation => exact List.forall_mem_singleton.2 fun a ha => isRandom_of_mem_settled ha

/-- The edges that an edge becomes draw from what it does, except in values. -/
theorem Edge.DrawsFrom.expandDraws {e : Edge} {id : String} {es : List Edge}
    (h : e.DrawsFrom conditions locations) (hes : e.expandDraws n id = .ok es) :
    ∀ e' ∈ es, e'.DrawsFrom conditions locations := by
  intro e' he'
  cases expandsInto_of_mem hes e' he' with
  | kept => exact h
  | own _ hds =>
    refine ⟨h.guard, fun d' hd' => ?_⟩
    obtain ⟨d, hd, hprobability, hassignments⟩ := hds d' hd'
    refine ⟨hprobability ▸ (h.destinations d hd).probability, fun a ha => ?_⟩
    rw [hassignments] at ha
    exact (h.destinations d hd).refs a ((settled_sublist _).subset ha)
  | @draw d a hd ha =>
    refine ⟨by simp [drawEdge], List.forall_mem_map.2 fun value _ => ⟨rfl, ?_⟩⟩
    exact List.forall_mem_singleton.2 ((h.destinations d hd).refs a ha)
  | @continuation d rest hd hrest =>
    refine ⟨by simp, List.forall_mem_singleton.2 ⟨rfl, fun a ha => ?_⟩⟩
    exact (h.destinations d hd).refs a (hrest.subset ((settled_sublist _).subset ha))

end Expansion

/-! ### Drawn automata -/

/-- An automaton is **drawn**: its variables start from no random value and its edges assign
none. -/
structure Automaton.Drawn (a : Automaton) : Prop where
  inits : ∀ v ∈ a.vars, v.init.isRandom = false
  edges : ∀ e ∈ a.edges, e.Drawn

/-- A variable that is checked starts from no random value. -/
theorem Variable.init_of_checkInit {automaton : Option String} {v : Variable}
    (h : v.checkInit automaton = .ok ()) : v.init.isRandom = false := by
  unfold checkInit at h
  split at h
  · obtain ⟨_, -, hfail⟩ := Result.bind_eq_ok.1 h
    cases hfail
  · exact Bool.eq_false_iff.2 ‹_›

namespace Automaton

variable {n : Size} {a a' : Automaton} {conditions locations bounds : List String}

theorem vars_expandDraws (h : a.expandDraws n = .ok a') : a'.vars = a.vars := by
  obtain ⟨edges, -, heq⟩ := Result.bind_eq_ok.1 h
  cases heq
  simp [replaceEdges]

/-- **Expanding an automaton draws it.** -/
theorem ExpandsTo.drawn (h : a.ExpandsTo n a') (hactions : ∀ e ∈ a.edges, e.action ≠ none) :
    a'.Drawn where
  inits := by
    rw [vars_expandDraws h.draws]
    exact fun v hv => Variable.init_of_checkInit (Result.forM_eq_ok.1 h.inits v hv)
  edges e' he' := by
    obtain ⟨e, he, id, es, hes, hmem⟩ := exists_of_mem_expandDraws h.draws he'
    exact Edge.drawn_expandDraws (hactions e he) hes e' hmem

theorem DrawsFrom.expandDraws (ha : a.DrawsFrom conditions locations bounds)
    (h : a.expandDraws n = .ok a') : a'.DrawsFrom conditions locations bounds where
  edges e' he' := by
    obtain ⟨e, he, id, es, hes, hmem⟩ := exists_of_mem_expandDraws h he'
    exact (ha.edges e he).expandDraws hes e' hmem
  types := by
    rw [vars_expandDraws h]
    exact ha.types

theorem DrawsFrom.without (ha : a.DrawsFrom conditions locations bounds) (actions : List String) :
    (a.without actions).DrawsFrom conditions locations bounds where
  edges e he := ha.edges e (mem_edges_without.1 he).1
  types := ha.types

theorem DrawsFrom.mono {conditions' locations' bounds' : List String}
    (ha : a.DrawsFrom conditions locations bounds) (hconditions : conditions ⊆ conditions')
    (hlocations : locations ⊆ locations') (hbounds : bounds ⊆ bounds') :
    a.DrawsFrom conditions' locations' bounds' where
  edges e he := (ha.edges e he).mono hconditions hlocations
  types v hv b hb hrandom := (ha.types v hv b hb hrandom).mono hbounds

end Automaton

/-- Buffers draw nowhere. -/
theorem Event.drawsFrom_buffer (e : Event) : e.buffer.DrawsFrom [] [] [] := by
  have hedge : ∀ (l target : String) (action : Option String), Edge.DrawsFrom [] []
      { location := l, action, destinations := [{ location := some target }] } :=
    fun _ _ _ => ⟨by simp, List.forall_mem_singleton.2 ⟨rfl, by simp⟩⟩
  have hvars : e.buffer.vars = [] := by
    unfold buffer
    split <;> simp [Automaton.setInitial]
  refine ⟨?_, by simp [hvars]⟩
  rw [edges_buffer]
  split <;> simp [hedge]

theorem Event.action_buffer (e : Event) : ∀ b ∈ e.buffer.edges, b.action ≠ none := by
  rw [edges_buffer]
  split <;> simp

/-! ### Compiled descriptors -/

namespace Descriptor

variable {d : Descriptor} {charts : Charts} {m : Model} {json : Json}

/-- The **texts** of the charts of a name. -/
def textsOf (d : Descriptor) (charts : Charts) (name : String) (texts : Chart → List String) :
    List String :=
  d.charts.flatMap fun entry =>
    match chartOf charts entry with
    | .ok c => if c.name = name then texts c else []
    | .error _ => []

theorem subset_textsOf {entry : ChartEntry} {c : Chart} (hentry : entry ∈ d.charts)
    (hc : chartOf charts entry = .ok c) (texts : Chart → List String) :
    texts c ⊆ d.textsOf charts c.name texts :=
  fun t ht => List.mem_flatMap.2 ⟨entry, hentry, by simpa [hc] using ht⟩

/-- **No accepted descriptor assigns a random value.** In each automaton of its model the values
that are assigned, the initial values and the probabilities have no distribution. A guard has one
only in a condition that is written with it in the chart of the automaton; what is assigned to has
one only if the location is written with it, and the type of a variable only if the bound is. -/
theorem drawn_compile (h : d.compile charts = .ok (m, json)) : ∀ a ∈ m.automata, a.Drawn ∧
    a.DrawsFrom (d.textsOf charts a.name Chart.conditions)
      (d.textsOf charts a.name Chart.locations) (d.textsOf charts a.name Chart.boundTexts) := by
  obtain ⟨es, m₁, hregister, hconnect⟩ := yields_of_compile h
  obtain ⟨m₀, es₀, found, hempty, -, hfound, hadd⟩ := yields_register hregister
  obtain ⟨buffers, hexpanded⟩ := automata_connect (charted_register hregister).nodup hconnect
  intro a' ha'
  obtain ⟨a, ha, hexpand⟩ := exists_of_mem_forall₂ hexpanded ha'
  rw [(Automaton.expandDraws_ok hexpand.draws).1]
  rcases List.mem_append.1 ha with ha | ha
  · obtain ⟨a₁, ha₁, rfl⟩ := List.mem_map.1 ha
    rcases compiled_addCharts found hadd a₁ ha₁ with ha₁ | ⟨c, hc, es₁, es₂, hcompile⟩
    · simp [hempty] at ha₁
    obtain ⟨entry, hentry, hchart⟩ := exists_of_mem_forall₂ (Result.mapM_eq_ok.1 hfound) hc
    have hactions : ∀ e ∈ (a₁.without (unsentActions es.all)).edges, e.action ≠ none := fun e he =>
      Chart.action_of_compile hcompile e (Automaton.mem_edges_without.1 he).1
    rw [Automaton.name_without, (Chart.compile_parts hcompile).2.1]
    have hsubset := subset_textsOf hentry hchart
    exact ⟨hexpand.drawn hactions,
      (((Chart.compile_drawsFrom hcompile).without _).expandDraws hexpand.draws).mono
        (hsubset _) (hsubset _) (hsubset _)⟩
  · obtain ⟨e, -, rfl⟩ := List.mem_map.1 ha
    exact ⟨hexpand.drawn e.action_buffer, (e.drawsFrom_buffer.expandDraws hexpand.draws).mono
      (by simp) (by simp) (by simp)⟩

/-- A robot that assigns a random value, under a condition without one. -/
theorem drawn_compile_of_robot :
    let robot : Descriptor :=
      { name := "network", capacity := .whole 1, randomOptions := .whole 1
        charts := [.inline
          { name := "robot", initial := "idle"
            datamodel := some [{ id := "x", type := "float64" }]
            states := [{ id := "idle", transitions := some [
              { cond := some "x < 1"
                goal := .single "idle" (some [.assign "x" "Math.random()"]) }] }] }] }
    ∃ m json, robot.compile = .ok (m, json) ∧ m.automata.map (·.name) = ["robot"] ∧
      ∀ a ∈ m.automata, a.Drawn ∧ a.DrawsFrom (robot.textsOf [] a.name Chart.conditions)
        (robot.textsOf [] a.name Chart.locations) (robot.textsOf [] a.name Chart.boundTexts) := by
  intro robot
  have haccepted : (robot.compile.toOption.any fun r =>
      r.1.automata.map (·.name) == ["robot"]) = true := by decide +kernel
  obtain ⟨⟨m, json⟩, hcompile, hnames⟩ := Result.exists_of_any haccepted
  exact ⟨m, json, hcompile, beq_iff_eq.1 hnames, drawn_compile hcompile⟩

/-- **Distributions stay in guards, in what is assigned to, and in bounds**, where the chart is
written with them. -/
theorem exists_isRandom_of_compile :
    let robot : Descriptor :=
      { name := "network", capacity := .whole 2, randomOptions := .whole 1
        charts := [.inline
          { name := "robot", initial := "idle"
            datamodel := some
              [{ id := "x", type := "float64", lowerBound := some (.source "Math.random()") },
                { id := "a", type := "int32[2]" }]
            states := [{ id := "idle", transitions := some [
              { cond := some "Math.random() < 0.5"
                goal := .single "idle"
                  (some [.assign "a[Math.floor(Math.random())]" "1"]) }] }] }] }
    ∃ m json, robot.compile = .ok (m, json) ∧ ∃ a ∈ m.automata,
      (∃ e ∈ a.edges, ∃ g ∈ e.guard, g.isRandom = true) ∧
      (∃ e ∈ a.edges, ∃ d ∈ e.destinations, ∃ x ∈ d.assignments, x.ref.isRandom = true) ∧
      ∃ v ∈ a.vars, ∃ b ∈ v.type.bounds, b.isRandom = true := by
  intro robot
  have hkept : (robot.compile.toOption.any fun r => r.1.automata.any fun a =>
      a.edges.any (fun e => e.guard.any (·.isRandom)) &&
      a.edges.any (fun e => e.destinations.any fun d => d.assignments.any (·.ref.isRandom)) &&
      a.vars.any fun v => v.type.bounds.any (·.isRandom)) = true := by decide +kernel
  obtain ⟨⟨m, json⟩, hcompile, hkept⟩ := Result.exists_of_any hkept
  exact ⟨m, json, hcompile, by simpa [and_assoc, Option.any_eq_true] using hkept⟩

end Descriptor

end ChartNet
