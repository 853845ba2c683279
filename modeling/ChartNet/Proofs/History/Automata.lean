import ChartNet.Proofs.Chart.Transitions

/-!
# Histories of automata

Automata are built by **operations**, in any order: locations, edges and variables are added, edges
are replaced or taken away. The compiler of charts does nothing else (`Chart.leads_compile`). What
is preserved by each operation is true of every automaton that was so **built**; above all its
locations are those of a **closed** graph.
-/

namespace ChartNet

/-- The **locations** that an edge mentions: the one that it leaves, and those of its finished
destinations. -/
def Edge.locations (e : Edge) : List String :=
  e.location :: e.destinations.filterMap (·.location)

namespace Automaton

/-! ### Operations -/

/-- An **operation** on an automaton. -/
inductive Operation where
  | addLocation (location : String)
  | setInitial (location : String)
  | addEdge (edge : Edge)
  | replaceEdges (edges : List Edge)
  | removeAction (action : String)
  | addVariable (v : Variable)

/-- The automaton after an operation; one that is refused changes nothing. -/
def Operation.apply : Operation → Automaton → Automaton
  | addLocation l, a => a.addLocation l
  | setInitial l, a => a.setInitial l
  | addEdge e, a => a.addEdge e
  | replaceEdges es, a => a.replaceEdges es
  | removeAction x, a => a.removeAction x
  | addVariable v, a => (a.addVariable v).toOption.getD a

/-- One automaton **leads** to another one by operations. -/
def Leads : Automaton → Automaton → Prop :=
  Relation.ReflTransGen fun a a' => ∃ op : Operation, a' = op.apply a

theorem Leads.of_operation (op : Operation) (a : Automaton) : a.Leads (op.apply a) :=
  .single ⟨op, rfl⟩

theorem leads_addLocations (a : Automaton) (locations : List String) :
    a.Leads (a.addLocations locations) := by
  unfold addLocations
  induction locations generalizing a with
  | nil => exact .refl
  | cons l ls ih => exact (Leads.of_operation (.addLocation l) a).trans (ih _)

theorem leads_addEdges (a : Automaton) (edges : List Edge) : a.Leads (a.addEdges edges) := by
  unfold addEdges
  induction edges generalizing a with
  | nil => exact .refl
  | cons e es ih => exact (Leads.of_operation (.addEdge e) a).trans (ih _)

theorem leads_addVariable {a a' : Automaton} {v : Variable} (h : a.addVariable v = .ok a') :
    a.Leads a' := by
  have happly : (Operation.addVariable v).apply a = a' := by
    simp [Operation.apply, h, Except.toOption]
  exact happly ▸ .of_operation (.addVariable v) a

/-- Declaring data is adding variables. -/
theorem leads_declareData {capacity : Size} {types : TypeLookup} (ds : List Data) {a a' : Automaton}
    (h : a.declareData capacity types ds = .ok a') : a.Leads a' := by
  have hvars : ∀ (vs : List Variable) {a a' : Automaton},
      vs.foldlM addVariable a = .ok a' → a.Leads a' := by
    intro vs
    induction vs with
    | nil =>
      rintro a a' ⟨⟩
      exact .refl
    | cons v vs ih =>
      intro a a' h
      rw [List.foldlM_cons, Result.bind_eq_ok] at h
      obtain ⟨a₁, hv, hvs⟩ := h
      exact (leads_addVariable hv).trans (ih hvs)
  induction ds generalizing a with
  | nil =>
    cases h
    exact .refl
  | cons d ds ih =>
    simp only [declareData, Result.bind_eq_ok] at h
    obtain ⟨vs, -, a₁, hvs, hds⟩ := h
    exact (hvars vs hvs).trans (ih hds)

end Automaton

/-! ### Compiled charts -/

namespace Chart

open Automaton (Leads)

variable {c : Chart} {setting : Setting} {es es' : Events} {a a' : Automaton}

theorem leads_transitions {s : State} (ts : List Transition) {position : Nat} {r r' : StateRecord}
    (h : (c.transitions setting s position a r ts).Yields es (a', r') es') : a.Leads a' := by
  induction ts generalizing position a r es with
  | nil =>
    obtain ⟨⟨rfl, -⟩, -⟩ := yields_transitions_nil.1 h
    exact .refl
  | cons t ts ih =>
    obtain ⟨-, a₁, condition, es₁, hfirst, hrest⟩ := yields_transitions_cons.1 h
    obtain ⟨ways, found, -, -, -, rfl⟩ := yields_transition.1 hfirst
    exact ((Automaton.leads_addEdges _ _).trans (Automaton.leads_addLocations _ _)).trans (ih hrest)

theorem leads_allStates (ss : List State) {rs : List StateRecord}
    (h : (c.allStates setting a ss).Yields es (a', rs) es') : a.Leads a' := by
  induction ss generalizing a es rs with
  | nil =>
    obtain ⟨⟨rfl, -⟩, -⟩ := yields_allStates_nil.1 h
    exact .refl
  | cons s ss ih =>
    obtain ⟨a₁, r, es₁, rs', hfirst, hrest, -⟩ := yields_allStates_cons.1 h
    have hstate := leads_transitions _ (yields_stateEdges.1 hfirst).1
    exact ((Leads.of_operation (.addLocation s.id) a).trans hstate).trans (ih hrest)

theorem leads_start (h : (c.start setting a).Yields es a' es') : a.Leads a' := by
  obtain ⟨first, -, ⟨-, rfl, -⟩ | ⟨-, body, -, rfl⟩⟩ := yields_start.1 h
  · exact .of_operation (.setInitial first.id) a
  · exact ((Leads.of_operation (.setInitial _) a).trans (Automaton.leads_addEdges _ _)).trans
      (Automaton.leads_addLocations _ _)

/-- **Compiling** a chart is nothing but operations on the automaton that it starts with. -/
theorem leads_compile (h : (c.compile setting).Yields es a es') :
    ({ name := c.name } : Automaton).Leads a := by
  obtain ⟨-, -, a₀, a₁, records, es₁, hdata, hstates, hstart⟩ := yields_compile.1 h
  have hloops : a₁.Leads (if c.isRoot then a₁ else a₁.addEdges (loops records)) := by
    split
    · exact .refl
    · exact Automaton.leads_addEdges _ _
  exact (((Automaton.leads_declareData _ hdata).trans (leads_allStates _ hstates)).trans
    hloops).trans
    (leads_start hstart)

end Chart

namespace Automaton

/-! ### Closed graphs -/

/-- An automaton that was **built**: by operations on a new one, or by compiling a chart. -/
inductive Built : Automaton → Prop
  | new (name : String) : Built { name }
  | operation {a : Automaton} (h : Built a) (op : Operation) : Built (op.apply a)
  | compiled {c : Chart} {setting : Setting} {es es' : Events} {a : Automaton}
      (h : (c.compile setting).Yields es a es') : Built a

/-- An automaton is a **closed** graph: its initial location and the locations that its edges
mention are locations of its own, each of which it has once; and no two of its variables have the
same name. -/
structure Closed (a : Automaton) : Prop where
  locations : a.locations.Nodup
  initial : ∀ l, a.initial = some l → l ∈ a.locations
  edges : ∀ e ∈ a.edges, ∀ l ∈ e.locations, l ∈ a.locations
  vars : (a.vars.map (·.name)).Nodup

namespace Closed

variable {a : Automaton}

theorem addLocation (h : a.Closed) (l : String) : (a.addLocation l).Closed where
  locations := nodup_insertLast h.locations
  initial l' hl' := mem_locations_addLocation.2 (.inr (h.initial l' hl'))
  edges e he l' hl' := mem_locations_addLocation.2 (.inr (h.edges e he l' hl'))
  vars := h.vars

theorem addLocations (h : a.Closed) (locations : List String) :
    (a.addLocations locations).Closed := by
  unfold Automaton.addLocations
  induction locations generalizing a with
  | nil => exact h
  | cons l ls ih => exact ih (h.addLocation l)

theorem setInitial (h : a.Closed) (l : String) : (a.setInitial l).Closed :=
  { h.addLocation l with
    initial := by
      rintro _ ⟨⟩
      exact mem_locations_addLocation.2 (.inl rfl) }

/-- An edge brings the locations that it mentions along. -/
theorem addEdge (h : a.Closed) (e : Edge) : (a.addEdge e).Closed :=
  { h.addLocations e.locations with
    edges := by
      intro e' he' l hl
      have hlocations : l ∈ a.locations ∨ l ∈ e.locations := by
        simp only [Automaton.addEdge, List.mem_append, List.mem_singleton] at he'
        rcases he' with he' | rfl
        · exact .inl (h.edges e' he' l hl)
        · exact .inr hl
      exact mem_locations_addLocations.2 hlocations }

theorem addEdges (h : a.Closed) (edges : List Edge) : (a.addEdges edges).Closed := by
  unfold Automaton.addEdges
  induction edges generalizing a with
  | nil => exact h
  | cons e es ih => exact ih (h.addEdge e)

/-- Replacing edges keeps all locations, also those that no edge mentions any more. -/
theorem replaceEdges (h : a.Closed) (edges : List Edge) : (a.replaceEdges edges).Closed :=
  addEdges (a := { a with edges := [] }) { h with edges := by simp } edges

theorem removeAction (h : a.Closed) (x : String) : (a.removeAction x).Closed :=
  { h with edges := fun e he => h.edges e (List.mem_filter.1 he).1 }

theorem addVariable (h : a.Closed) {v : Variable} {a' : Automaton}
    (ha' : a.addVariable v = .ok a') :
    a'.Closed := by
  obtain ⟨hnew, rfl⟩ := addVariable_eq_ok.1 ha'
  exact { h with vars := by simpa using h.vars.concat hnew }

/-- **Each operation keeps an automaton closed.** -/
theorem apply (h : a.Closed) (op : Operation) : (op.apply a).Closed := by
  cases op with
  | addLocation l => exact h.addLocation l
  | setInitial l => exact h.setInitial l
  | addEdge e => exact h.addEdge e
  | replaceEdges es => exact h.replaceEdges es
  | removeAction x => exact h.removeAction x
  | addVariable v =>
    cases hadd : a.addVariable v with
    | ok a' => simpa [Operation.apply, hadd, Except.toOption] using h.addVariable hadd
    | error e => simpa [Operation.apply, hadd, Except.toOption] using h

theorem leads (h : a.Closed) {a' : Automaton} (hleads : a.Leads a') : a'.Closed := by
  induction hleads with
  | refl => exact h
  | tail _ hstep ih =>
    obtain ⟨op, rfl⟩ := hstep
    exact ih.apply op

end Closed

theorem closed_new (name : String) : ({ name } : Automaton).Closed where
  locations := .nil
  initial := by simp
  edges := by simp
  vars := .nil

/-- **Every automaton that was built is closed**, whatever operations built it. -/
theorem Built.closed {a : Automaton} (h : a.Built) : a.Closed := by
  induction h with
  | new name => exact closed_new name
  | operation _ op ih => exact ih.apply op
  | compiled h => exact (closed_new _).leads (Chart.leads_compile h)

theorem Built.leads {a a' : Automaton} (h : a.Built) (hleads : a.Leads a') : a'.Built := by
  induction hleads with
  | refl => exact h
  | tail _ hstep ih =>
    obtain ⟨op, rfl⟩ := hstep
    exact ih.operation op

end Automaton

end ChartNet
