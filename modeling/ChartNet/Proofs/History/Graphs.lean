import ChartNet.Proofs.History.Models
import ChartNet.Proofs.Model.Listing
import ChartNet.Proofs.Units

/-!
# Written automata are closed graphs

Whatever operations built a model: if it can be written, then each of its automata is written as a
graph that is **closed** under its edges, with its locations in strict order. An unfinished
destination may stand in the model, but not in its written form. The list of actions is that of the
edges, no matter where actions were removed or came in.
-/

namespace ChartNet

/-- The JSON form of an automaton is a **closed graph** of nodes and arrows: its locations are the
nodes, which increase strictly, its edges are the arrows, the initial location and those of all
edges and destinations are nodes, and no two variables have the same name. -/
structure Json.ClosedGraph (automaton : Json) (nodes : List String)
    (arrows : List Json) : Prop where
  locations : automaton.texts? "locations" "name" = some nodes
  increasing : nodes.Pairwise Text.unitLt
  initial : ∃ l ∈ nodes, automaton.get? "initial-locations" = some (.arr [.str l])
  edges : automaton.items? "edges" = some arrows
  sources : ∀ e ∈ arrows, ∃ l ∈ nodes, e.text? "location" = some l
  targets : ∀ e ∈ arrows, ∃ destinations, e.items? "destinations" = some destinations ∧
    ∀ d ∈ destinations, ∃ l ∈ nodes, d.text? "location" = some l
  vars : automaton.get? "variables" = none ∨
    ∃ names, automaton.texts? "variables" "name" = some names ∧ names.Nodup

/-- A closed automaton is written as a closed graph. -/
theorem Automaton.Closed.closedGraph {a : Automaton} (ha : a.Closed) {constants : Constants}
    {json : Json} (h : a.toJson constants = .ok json) :
    ∃ edges, json.ClosedGraph (Text.sortByUnits a.locations) edges := by
  obtain ⟨-, hlocations, ⟨initial, hinitial, hwritten⟩, ⟨edges, hedges, hforall⟩, hvars⟩ :=
    Automaton.toJson_reads h
  have hmem {l : String} (hl : l ∈ a.locations) : l ∈ Text.sortByUnits a.locations :=
    Text.mem_sortByUnits.2 hl
  refine ⟨edges, ?_⟩
  exact
    { locations := hlocations
      increasing := Text.sortByUnits_pairwise ha.locations
      initial := ⟨initial, hmem (ha.initial initial hinitial), hwritten⟩
      edges := hedges
      sources := by
        intro j hj
        obtain ⟨e, he, hwrites⟩ := exists_of_mem_forall₂ hforall hj
        exact ⟨e.location, hmem (ha.edges e he _ List.mem_cons_self), (Edge.toJson_reads hwrites).1⟩
      targets := by
        intro j hj
        obtain ⟨e, he, hwrites⟩ := exists_of_mem_forall₂ hforall hj
        obtain ⟨-, -, destinations, hdestinations, hall⟩ := Edge.toJson_reads hwrites
        refine ⟨destinations, hdestinations, fun k hk => ?_⟩
        obtain ⟨d, hd, hwritesDestination⟩ := exists_of_mem_forall₂ hall hk
        obtain ⟨l, hl, htext⟩ := Edge.text?_destinationJson hwritesDestination
        have hmention : l ∈ e.locations :=
          List.mem_cons_of_mem _ (List.mem_filterMap.2 ⟨d, hd, hl⟩)
        exact ⟨l, hmem (ha.edges e he l hmention), htext⟩
      vars := hvars.imp_right fun hnames => ⟨_, hnames, ha.vars⟩ }

namespace Model

/-- The actions of a model are those of its edges. -/
theorem mem_actions {m : Model} {x : String} :
    x ∈ m.actions ↔ ∃ a ∈ m.automata, ∃ e ∈ a.edges, e.action = some x := by
  simp [actions, Text.mem_sortByUnits, Automaton.actions]

/-- The actions of a model increase strictly. -/
theorem actions_pairwise (m : Model) : m.actions.Pairwise Text.unitLt :=
  Text.sortByUnits_pairwise (nodup_eraseDups _)

/-- **Written automata are closed graphs.** Of every model that was built by operations, in any
order and failed ones included, and that can be written, each automaton is written as a closed
graph, and the actions are written in strict order and are those of all edges. -/
theorem Built.closedGraphs {m : Model} (hm : m.Built) {json : Json} (h : m.toJson = .ok json) :
    ∃ automata actions, json.items? "automata" = some automata ∧
      json.texts? "automata" "name" = some m.names ∧
      (∀ a ∈ automata, ∃ nodes arrows, a.ClosedGraph nodes arrows) ∧
      json.texts? "actions" "name" = some actions ∧ actions.Pairwise Text.unitLt ∧
      ∀ x, x ∈ actions ↔ ∃ a ∈ automata, ∃ edges, a.items? "edges" = some edges ∧
        ∃ e ∈ edges, e.text? "action" = some x := by
  obtain ⟨hactions, ⟨automata, hautomata, hforall⟩, -⟩ := Model.toJson_reads h
  refine ⟨automata, m.actions, hautomata, ?_, fun j hj => ?_, hactions, m.actions_pairwise,
    fun x => ?_⟩
  · exact Json.texts?_of_forall₂ hautomata hforall fun _ _ hwrites =>
      (Automaton.toJson_reads hwrites).1
  · obtain ⟨a, ha, hwrites⟩ := exists_of_mem_forall₂ hforall hj
    exact ⟨_, (hm.automata a ha).closed.closedGraph hwrites⟩
  · rw [mem_actions]
    constructor
    · rintro ⟨a, ha, e, he, hx⟩
      obtain ⟨j, hj, hwrites⟩ := exists_of_mem_forall₂ hforall.flip ha
      obtain ⟨-, -, -, ⟨edges, hedges, hall⟩, -⟩ := Automaton.toJson_reads hwrites
      obtain ⟨k, hk, hwritesEdge⟩ := exists_of_mem_forall₂ hall.flip he
      exact ⟨j, hj, edges, hedges, k, hk, (Edge.toJson_reads hwritesEdge).2.1.trans hx⟩
    · rintro ⟨j, hj, edges, hedges, k, hk, hx⟩
      obtain ⟨a, ha, hwrites⟩ := exists_of_mem_forall₂ hforall hj
      obtain ⟨-, -, -, ⟨edges', hedges', hall⟩, -⟩ := Automaton.toJson_reads hwrites
      obtain rfl := Option.some.inj (hedges.symm.trans hedges')
      obtain ⟨e, he, hwritesEdge⟩ := exists_of_mem_forall₂ hall hk
      exact ⟨a, ha, e, he, (Edge.toJson_reads hwritesEdge).2.1.symm.trans hx⟩

/-- An automaton whose edge assigns a random value is added and composed, then its draws are
expanded, then its edge is taken away. -/
theorem Built.closedGraphs_of_expansion :
    let step : Edge :=
      { location := "idle", action := some "step"
        destinations := [{ location := some "busy"
                           assignments := [{ ref := .ident "x", value := .uniform 0 1 }] }] }
    let robot := (Automaton.Operation.addEdge step).apply
      ((Automaton.Operation.addVariable { name := "x", type := .real, init := .real 0 }).apply
        ((Automaton.Operation.setInitial "idle").apply { name := "robot" }))
    let composed := (Operation.setComposition { elements := ["robot"] }).after
      ((Operation.addAutomaton robot).after { name := "network" })
    let m :=
      (Operation.removeAction "step").after ((Operation.expandDraws (.whole 2)).after composed)
    ∃ json, m.Built ∧ m.toJson = .ok json ∧ ∃ automata actions,
      json.items? "automata" = some automata ∧
      json.texts? "automata" "name" = some m.names ∧
      (∀ a ∈ automata, ∃ nodes arrows, a.ClosedGraph nodes arrows) ∧
      json.texts? "actions" "name" = some actions ∧ actions.Pairwise Text.unitLt ∧
      ∀ x, x ∈ actions ↔ ∃ a ∈ automata, ∃ edges, a.items? "edges" = some edges ∧
        ∃ e ∈ edges, e.text? "action" = some x := by
  intro step robot composed m
  have hrobot : robot.Built := (((Automaton.Built.new "robot").operation _).operation _).operation _
  have helements : Composition.Built { elements := ["robot"] } := .addElement .empty rfl
  have hm : m.Built :=
    ((((Built.new "network").operation (.addAutomaton robot) hrobot).operation (.setComposition _)
      helements).operation (.expandDraws (.whole 2)) trivial).operation
        (.removeAction "step") trivial
  have hwritten : (m.toJson.toOption.any fun _ => true) = true := by decide +kernel
  obtain ⟨json, hjson, -⟩ := Result.exists_of_any hwritten
  exact ⟨json, hm, hjson, hm.closedGraphs hjson⟩

end Model

end ChartNet
