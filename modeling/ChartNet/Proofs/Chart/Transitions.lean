import ChartNet.Chart.Compile
import ChartNet.Proofs.Automaton
import ChartNet.Proofs.Body.Actions

/-!
# Compiled charts

What the automaton of a chart consists of. Every transition becomes a **clause**: the edge of the
transition, whose guard depends on the transitions of the same event before it, and the further
edges of its bodies, which receive nothing. The edges of the automaton are those of the clauses,
state by state, then the loops, then the edges of the start (`Chart.compile_parts`).
-/

namespace ChartNet

/-! ### Clauses -/

/-- An edge **belongs** to a transition of a state: it leaves from the state, has the action of the
transition, and leads to the starts of the bodies of the targets. -/
structure Chart.Belongs (c : Chart) (setting : Setting) (s : State) (t : Transition) (edge : Edge) :
    Prop where
  location : edge.location = s.id
  action : edge.action = some (transitionAction s.id t)
  destinations : ∃ (a : Automaton) (ways : List Way) (es es' : Events) (found : List Body),
    c.ways setting.constants t = .ok ways ∧
    (bodies (setting.scope a t.event) s t 0 ways).Yields es found es' ∧
    edge.destinations = found.map (·.head)

/-- A **clause**: a transition with its condition, its edge and the further edges of its bodies. -/
structure Clause where
  transition : Transition
  condition : Option Expr
  edge : Edge
  rest : List Edge

namespace Clause

/-- The event of the transition. -/
def event (k : Clause) : Option String := k.transition.event

/-- All edges of a clause. -/
def edges (k : Clause) : List Edge := k.edge :: k.rest

end Clause

/-- The record of a state after one more clause. -/
def StateRecord.push (r : StateRecord) (k : Clause) : StateRecord :=
  { r with claims := r.claims ++ [(claimKey k.event, k.condition)] }

/-- What is true of a clause that was compiled after the transitions in a record. -/
structure Chart.Compiles (c : Chart) (setting : Setting) (s : State) (automaton : String)
    (es : Events) (r : StateRecord) (k : Clause) : Prop where
  fresh : r.isUnconditional k.event = false
  parsed : k.transition.cond.mapM (Source.parse ·) = .ok k.condition
  belongs : c.Belongs setting s k.transition k.edge
  guard : k.edge.guard = some ((guardAfter (r.conditions k.event) k.condition).withEvent k.event)
  rest : ∀ e ∈ k.rest, e.SendsOrQuiet es automaton
  registered : ∀ event, k.event = some event → es.Registers .receiver event automaton

/-- The clauses of a state, from a record to the record after them. -/
inductive Chart.Clauses (c : Chart) (setting : Setting) (s : State) (automaton : String)
    (es : Events) : StateRecord → List Clause → StateRecord → Prop
  | nil (r : StateRecord) : Clauses c setting s automaton es r [] r
  | cons {r r' : StateRecord} {k : Clause} {ks : List Clause}
      (first : c.Compiles setting s automaton es r k)
      (others : Clauses c setting s automaton es (r.push k) ks r') :
      Clauses c setting s automaton es r (k :: ks) r'

/-- A state with its clauses and the record at their end. -/
structure StatePart where
  state : State
  clauses : List Clause
  record : StateRecord

namespace StatePart

/-- All edges of the clauses of a state. -/
def edges (p : StatePart) : List Edge := p.clauses.flatMap (·.edges)

end StatePart

namespace Chart

/-- The clauses of a part are those of all transitions of its state. If some of them have an event,
it must be possible that they fire. -/
structure IsPart (c : Chart) (setting : Setting) (automaton : String) (es : Events)
    (p : StatePart) : Prop where
  transitions : p.clauses.map (·.transition) = p.state.transitions.getD []
  clauses : c.Clauses setting p.state automaton es { id := p.state.id } p.clauses p.record
  fire : ((p.state.transitions.getD []).any (·.event.isSome) && p.record.isUnconditional none) =
    false

variable {c : Chart} {setting : Setting} {s : State} {automaton : String} {es es' : Events}

theorem Compiles.mono {r : StateRecord} {k : Clause} (h : c.Compiles setting s automaton es r k)
    (hes : es.Extends automaton es') : c.Compiles setting s automaton es' r k where
  fresh := h.fresh
  parsed := h.parsed
  belongs := h.belongs
  guard := h.guard
  rest e he := (h.rest e he).mono hes
  registered event he := hes.kept (h.registered event he)

theorem Clauses.mono {r r' : StateRecord} {ks : List Clause}
    (h : c.Clauses setting s automaton es r ks r') (hes : es.Extends automaton es') :
    c.Clauses setting s automaton es' r ks r' := by
  induction h with
  | nil r => exact .nil r
  | cons first others ih => exact .cons (first.mono hes) ih

theorem IsPart.mono {p : StatePart} (h : c.IsPart setting automaton es p)
    (hes : es.Extends automaton es') : c.IsPart setting automaton es' p where
  transitions := h.transitions
  clauses := h.clauses.mono hes
  fire := h.fire

/-! ### Taking a compilation apart -/

section Parts

variable {a a' : Automaton} {r r' : StateRecord} {t : Transition} {condition : Option Expr}

/-- The registry when the bodies of a transition are compiled. -/
def received (es : Events) (automaton id : String) (t : Transition) : Events :=
  match t.event with
  | some event => es.addReceiver event automaton (transitionAction id t)
  | none => es

theorem yields_bodies_nil {scope : BodyScope} {total : Float} {found : List Body} :
    (bodies scope s t total []).Yields es found es' ↔ found = [] ∧ es' = es :=
  Build.yields_pure

/-- The body of a way is compiled with the probability of the ways up to it in its digest. -/
theorem yields_bodies_cons {scope : BodyScope} {total : Float} {w : Way} {ws : List Way}
    {found : List Body} :
    (bodies scope s t total (w :: ws)).Yields es found es' ↔
      ∃ body es₁ others,
        (scope.compile
          { source := s.id, target := w.target.target
            digest := digest [.str s.id, .str w.target.target, .str (transitionAction s.id t),
              conditionPart t.cond, .str (Number.text (total + w.probability))] }
          (.real w.probability)
          (s.onExit.getD [] ++ w.target.body.getD [] ++ w.state.onEntry.getD [])).Yields
            es body es₁ ∧
        (bodies scope s t (total + w.probability) ws).Yields es₁ others es' ∧
        found = body :: others := by
  simp only [bodies, Build.yields_bind, Build.yields_pure]
  constructor
  · rintro ⟨body, es₁, hbody, others, _, hothers, rfl, rfl⟩
    exact ⟨body, es₁, others, hbody, hothers, rfl⟩
  · rintro ⟨body, es₁, others, hbody, hothers, rfl⟩
    exact ⟨body, es₁, hbody, others, es', hothers, rfl, rfl⟩

theorem yields_transition :
    (c.transition setting a r s t).Yields es (a', condition) es' ↔
      ∃ ways found, c.ways setting.constants t = .ok ways ∧
        t.cond.mapM (Source.parse ·) = .ok condition ∧
        (bodies (setting.scope a t.event) s t 0 ways).Yields (received es a.name s.id t) found es' ∧
        a' = (a.addEdges ({ location := s.id, action := some (transitionAction s.id t)
                            guard := some ((guardAfter (r.conditions t.event) condition).withEvent
                              t.event)
                            destinations := found.map (·.head) } ::
          found.flatMap (·.edges))).addLocations (found.flatMap (·.locations)) := by
  obtain ⟨event, cond, goal⟩ := t
  cases event with
  | none =>
    simp only [transition, received, Build.yields_bind, Build.yields_ofResult, Build.yields_pure,
      Prod.mk.injEq]
    constructor
    · rintro ⟨ways, _, ⟨hways, rfl⟩, _, _, ⟨hcondition, rfl⟩, found, _, hfound, ⟨ha, rfl⟩, rfl⟩
      exact ⟨ways, found, hways, hcondition, hfound, ha⟩
    · rintro ⟨ways, found, hways, hcondition, hfound, ha⟩
      exact ⟨ways, _, ⟨hways, rfl⟩, _, _, ⟨hcondition, rfl⟩, found, _, hfound, ⟨ha, rfl⟩, rfl⟩
  | some event =>
    simp only [transition, received, Build.yields_bind, Build.yields_modify, Build.yields_ofResult,
      Build.yields_pure, Prod.mk.injEq]
    constructor
    · rintro ⟨ways, _, ⟨hways, rfl⟩, _, _, rfl, _, _, ⟨hcondition, rfl⟩, found, _, hfound,
        ⟨ha, rfl⟩, rfl⟩
      exact ⟨ways, found, hways, hcondition, hfound, ha⟩
    · rintro ⟨ways, found, hways, hcondition, hfound, ha⟩
      exact ⟨ways, _, ⟨hways, rfl⟩, (), _, rfl, _, _, ⟨hcondition, rfl⟩, found, _, hfound,
        ⟨ha, rfl⟩, rfl⟩

theorem yields_transitions_nil {position : Nat} :
    (c.transitions setting s position a r []).Yields es (a', r') es' ↔
      (a' = a ∧ r' = r) ∧ es' = es := by
  simp [transitions]

theorem yields_transitions_cons {position : Nat} {ts : List Transition} :
    (c.transitions setting s position a r (t :: ts)).Yields es (a', r') es' ↔
      r.isUnconditional t.event = false ∧ ∃ a₁ condition es₁,
        (c.transition setting a r s t).Yields es (a₁, condition) es₁ ∧
        (c.transitions setting s (position + 1) a₁
          { r with claims := r.claims ++ [(claimKey t.event, condition)] } ts).Yields
            es₁ (a', r') es' := by
  simp only [transitions]
  cases r.isUnconditional t.event with
  | true => simp [failModel]
  | false => simp

theorem yields_stateEdges :
    (c.stateEdges setting a s).Yields es (a', r) es' ↔
      (c.transitions setting s 0 (a.addLocation s.id) { id := s.id }
        (s.transitions.getD [])).Yields es (a', r) es' ∧
      ((s.transitions.getD []).any (·.event.isSome) && r.isUnconditional none) = false := by
  simp only [stateEdges, Build.yields_within, Build.yields_bind]
  constructor
  · rintro ⟨⟨a₁, r₁⟩, es₁, htransitions, h⟩
    simp only at h
    split at h
    · simp [failModel] at h
    · rename_i hfire
      obtain ⟨heq, rfl⟩ := Build.yields_pure.1 h
      obtain ⟨rfl, rfl⟩ := Prod.mk.inj heq
      exact ⟨htransitions, Bool.eq_false_iff.2 hfire⟩
  · rintro ⟨htransitions, hfire⟩
    refine ⟨(a', r), es', htransitions, ?_⟩
    simp [hfire]

theorem yields_allStates_nil {rs : List StateRecord} :
    (c.allStates setting a []).Yields es (a', rs) es' ↔ (a' = a ∧ rs = []) ∧ es' = es := by
  simp [allStates]

theorem yields_allStates_cons {ss : List State} {rs : List StateRecord} :
    (c.allStates setting a (s :: ss)).Yields es (a', rs) es' ↔
      ∃ a₁ r es₁ rs', (c.stateEdges setting a s).Yields es (a₁, r) es₁ ∧
        (c.allStates setting a₁ ss).Yields es₁ (a', rs') es' ∧ rs = r :: rs' := by
  simp only [allStates, Build.yields_bind, Build.yields_pure, Prod.mk.injEq]
  constructor
  · rintro ⟨⟨a₁, r⟩, es₁, hs, ⟨a₂, rs'⟩, _, hss, ⟨rfl, rfl⟩, rfl⟩
    exact ⟨a₁, r, es₁, rs', hs, hss, rfl⟩
  · rintro ⟨a₁, r, es₁, rs', hs, hss, rfl⟩
    exact ⟨(a₁, r), es₁, hs, (a', rs'), es', hss, ⟨rfl, rfl⟩, rfl⟩

/-- The path of the steps that run once at the **start**. -/
def startPath (first : State) : BodyPath where
  source := first.id ++ "-first-exec"
  target := first.id
  digest := digest [.str (first.id ++ "-first-exec"), .str first.id, .str "onentry"]

/-- The **start** is the initial state, if entering it runs no steps, and else a location of its
own. -/
theorem yields_start :
    (c.start setting a).Yields es a' es' ↔
      ∃ first, c.state c.initial = .ok first ∧
        (first.onEntry.getD [] = [] ∧ a' = a.setInitial first.id ∧ es' = es ∨
          first.onEntry.getD [] ≠ [] ∧ ∃ body,
            ((setting.scope a).compile (startPath first) (.real 1) (first.onEntry.getD [])).Yields
              es body es' ∧
            a' = ((a.setInitial (startPath first).source).addEdges (body.startingWith
                (startPath first).source (startPath first).action none).edges).addLocations
              (body.startingWith (startPath first).source
                (startPath first).action none).locations) := by
  simp only [start, Build.yields_bind, Build.yields_ofResult]
  constructor
  · rintro ⟨first, _, ⟨hfirst, rfl⟩, h⟩
    refine ⟨first, hfirst, ?_⟩
    split at h
    · rename_i hentry
      obtain ⟨rfl, rfl⟩ := Build.yields_pure.1 h
      exact .inl ⟨hentry, rfl, rfl⟩
    · rename_i hentry
      simp only [Build.yields_bind, Build.yields_within, BodyScope.fragment, Build.yields_pure] at h
      obtain ⟨_, _, ⟨body, es₁, hbody, rfl, rfl⟩, rfl, rfl⟩ := h
      exact .inr ⟨hentry, body, hbody, rfl⟩
  · rintro ⟨first, hfirst, ⟨hentry, rfl, rfl⟩ | ⟨hentry, body, hbody, rfl⟩⟩
    · exact ⟨first, _, ⟨hfirst, rfl⟩, by simp [hentry]⟩
    · refine ⟨first, _, ⟨hfirst, rfl⟩, ?_⟩
      split
      · rename_i hnone
        exact absurd hnone hentry
      · simp only [Build.yields_bind, Build.yields_within, BodyScope.fragment, Build.yields_pure]
        exact ⟨_, es', ⟨body, es', hbody, rfl, rfl⟩, rfl, rfl⟩

/-- A **loop** leads from the state of its record back to it. -/
theorem exists_of_mem_loops {records : List StateRecord} {e : Edge} (h : e ∈ loops records) :
    ∃ r ∈ records, ∃ event, loop? r event = some e ∧ e.location = r.id ∧
      e.action = some (receiveAction event) ∧ e.destinations = [{ location := some r.id }] := by
  obtain ⟨r, hr, he⟩ := List.mem_flatMap.1 h
  split at he
  · simp at he
  · obtain ⟨event, -, hloop⟩ := List.mem_filterMap.1 he
    refine ⟨r, hr, event, hloop, ?_⟩
    simp only [loop?] at hloop
    split at hloop
    · cases hloop
    · cases hloop
      exact ⟨rfl, rfl, rfl⟩

theorem yields_compile :
    (c.compile setting).Yields es a es' ↔
      checkStates [] c.states = .ok () ∧ (∃ first, c.state c.initial = .ok first) ∧
      ∃ a₀ a₁ records es₁,
        Automaton.declareData setting.capacity (fun n => setting.globals n <|> es.variableType? n)
          { name := c.name } (c.datamodel.getD []) = .ok a₀ ∧
        (c.allStates setting a₀ c.states).Yields es (a₁, records) es₁ ∧
        (c.start setting (if c.isRoot then a₁ else a₁.addEdges (loops records))).Yields
          es₁ a es' := by
  simp only [compile, Build.yields_within, Build.yields_bind, Build.yields_ofResult,
    Build.yields_get]
  constructor
  · rintro ⟨_, _, ⟨hcheck, rfl⟩, first, _, ⟨hfirst, rfl⟩, _, _, ⟨rfl, rfl⟩, a₀, _, ⟨hdata, rfl⟩,
      ⟨a₁, records⟩, es₁, hstates, hstart⟩
    exact ⟨hcheck, ⟨first, hfirst⟩, a₀, a₁, records, es₁, hdata, hstates, hstart⟩
  · rintro ⟨hcheck, ⟨first, hfirst⟩, a₀, a₁, records, es₁, hdata, hstates, hstart⟩
    exact ⟨(), _, ⟨hcheck, rfl⟩, first, _, ⟨hfirst, rfl⟩, _, _, ⟨rfl, rfl⟩, a₀, _, ⟨hdata, rfl⟩,
      (a₁, records), es₁, hstates, hstart⟩

end Parts

/-! ### Transitions and states -/

/-- The edges of bodies send or are quiet. -/
theorem bodies_sendOrQuiet {scope : BodyScope} {t : Transition} (ways : List Way) {total : Float}
    {found : List Body} (h : (bodies scope s t total ways).Yields es found es') :
    es.Extends scope.automaton es' ∧
      ∀ e ∈ found.flatMap (·.edges), e.SendsOrQuiet es' scope.automaton := by
  induction ways generalizing total es es' found with
  | nil =>
    obtain ⟨rfl, rfl⟩ := yields_bodies_nil.1 h
    exact ⟨.refl _ _, by simp⟩
  | cons w ws ih =>
    obtain ⟨body, es₁, others, hbody, hothers, rfl⟩ := yields_bodies_cons.1 h
    obtain ⟨hext, hedges⟩ := BodyScope.compile_sendOrQuiet hbody (quiet_digest _)
    obtain ⟨hext', hedges'⟩ := ih hothers
    refine ⟨hext.trans hext', fun e he => ?_⟩
    simp only [List.flatMap_cons, List.mem_append] at he
    rcases he with he | he
    · exact (hedges e he).mono hext'
    · exact hedges' e he

/-- Receiving is registered before the bodies of a transition are compiled. -/
private theorem extends_received (automaton id : String) (t : Transition) :
    es.Extends automaton (received es automaton id t) ∧
      ∀ event, t.event = some event →
        (received es automaton id t).Registers .receiver event automaton := by
  unfold received
  cases t.event with
  | none => exact ⟨.refl _ _, by simp⟩
  | some event =>
    refine ⟨Events.extends_addReceiver _ _ _ _, fun event' hevent => ?_⟩
    obtain rfl := Option.some.inj hevent
    exact Events.registers_addReceiver _ _ _ _

/-- A **transition** becomes a clause. -/
theorem transition_clause {a a' : Automaton} {r : StateRecord} {t : Transition}
    {condition : Option Expr} (hfresh : r.isUnconditional t.event = false)
    (h : (c.transition setting a r s t).Yields es (a', condition) es') :
    es.Extends a.name es' ∧ a'.name = a.name ∧ ∃ edge rest,
      c.Compiles setting s a.name es' r ⟨t, condition, edge, rest⟩ ∧
      a'.edges = a.edges ++ edge :: rest := by
  obtain ⟨ways, found, hways, hcondition, hfound, rfl⟩ := yields_transition.1 h
  obtain ⟨hext, hregistered⟩ : es.Extends a.name (received es a.name s.id t) ∧ _ :=
    extends_received a.name s.id t
  obtain ⟨hext', hrest⟩ := bodies_sendOrQuiet ways hfound
  refine ⟨hext.trans hext', by simp, _, found.flatMap (·.edges), ?_, by simp; rfl⟩
  exact
    { fresh := hfresh
      parsed := hcondition
      belongs := ⟨rfl, rfl, a, ways, _, es', found, hways, hfound, rfl⟩
      guard := rfl
      rest := hrest
      registered := fun event he => hext'.kept (hregistered event he) }

/-- The **transitions** of a state become clauses. -/
theorem transitions_clauses (ts : List Transition) {position : Nat} {a a' : Automaton}
    {r r' : StateRecord}
    (h : (c.transitions setting s position a r ts).Yields es (a', r') es') :
    es.Extends a.name es' ∧ a'.name = a.name ∧ ∃ ks : List Clause,
      ks.map (·.transition) = ts ∧ c.Clauses setting s a.name es' r ks r' ∧
      a'.edges = a.edges ++ ks.flatMap (·.edges) := by
  induction ts generalizing position a r es with
  | nil =>
    obtain ⟨⟨rfl, rfl⟩, rfl⟩ := yields_transitions_nil.1 h
    exact ⟨.refl _ _, rfl, [], rfl, .nil _, by simp⟩
  | cons t ts ih =>
    obtain ⟨hfresh, a₁, condition, es₁, hfirst, hrest⟩ := yields_transitions_cons.1 h
    obtain ⟨hext, hname, edge, rest, hcompiles, hedges⟩ := transition_clause hfresh hfirst
    obtain ⟨hext', hname', ks, hks, hclauses, hedges'⟩ := ih hrest
    rw [hname] at hext' hname' hclauses
    refine ⟨hext.trans hext', hname', ⟨t, condition, edge, rest⟩ :: ks, by simp [hks],
      .cons (hcompiles.mono hext') hclauses, ?_⟩
    rw [hedges', hedges]
    simp [Clause.edges]

/-- A **state** becomes a part. -/
theorem stateEdges_part {a a' : Automaton} {r : StateRecord}
    (h : (c.stateEdges setting a s).Yields es (a', r) es') :
    es.Extends a.name es' ∧ a'.name = a.name ∧ ∃ ks : List Clause,
      c.IsPart setting a.name es' ⟨s, ks, r⟩ ∧ a'.edges = a.edges ++ ks.flatMap (·.edges) := by
  obtain ⟨htransitions, hfire⟩ := yields_stateEdges.1 h
  obtain ⟨hext, hname, ks, hks, hclauses, hedges⟩ := transitions_clauses _ htransitions
  exact ⟨hext, hname, ks, ⟨hks, hclauses, hfire⟩, hedges⟩

/-- All states become parts. -/
theorem allStates_parts (ss : List State) {a a' : Automaton} {rs : List StateRecord}
    (h : (c.allStates setting a ss).Yields es (a', rs) es') :
    es.Extends a.name es' ∧ a'.name = a.name ∧ ∃ parts : List StatePart,
      parts.map (·.state) = ss ∧ parts.map (·.record) = rs ∧
      (∀ p ∈ parts, c.IsPart setting a.name es' p) ∧
      a'.edges = a.edges ++ parts.flatMap (·.edges) := by
  induction ss generalizing a es rs with
  | nil =>
    obtain ⟨⟨rfl, rfl⟩, rfl⟩ := yields_allStates_nil.1 h
    exact ⟨.refl _ _, rfl, [], rfl, rfl, by simp, by simp⟩
  | cons s ss ih =>
    obtain ⟨a₁, r, es₁, rs', hfirst, hrest, rfl⟩ := yields_allStates_cons.1 h
    obtain ⟨hext, hname, ks, hpart, hedges⟩ := stateEdges_part hfirst
    obtain ⟨hext', hname', parts, hstates, hrecords, hparts, hedges'⟩ := ih hrest
    rw [hname] at hext' hname' hparts
    refine ⟨hext.trans hext', hname', ⟨s, ks, r⟩ :: parts,
      by simp [hstates], by simp [hrecords], ?_, ?_⟩
    · simp only [List.mem_cons, forall_eq_or_imp]
      exact ⟨hpart.mono hext', hparts⟩
    · rw [hedges', hedges]
      simp [StatePart.edges]

/-! ### The whole chart -/

/-- Accepted states have distinct names. -/
theorem nodup_of_checkStates (ss : List State) {seen : List String}
    (h : checkStates seen ss = .ok ()) :
    (ss.map (·.id)).Nodup ∧ ∀ s ∈ ss, s.id ∉ seen := by
  induction ss generalizing seen with
  | nil => simp
  | cons s ss ih =>
    simp only [checkStates] at h
    split at h
    · cases h
    · rename_i hnew
      obtain ⟨hnodup, hseen⟩ := ih h
      have hs : s.id ∉ seen := by simpa using hnew
      refine ⟨?_, ?_⟩
      · simp only [List.map_cons, List.nodup_cons, List.mem_map, not_exists, not_and]
        exact ⟨fun t ht he => hseen t ht (by simp [he]), hnodup⟩
      · simp only [List.mem_cons, forall_eq_or_imp]
        exact ⟨hs, fun t ht he => hseen t ht (by simp [he])⟩

/-- Declaring data adds variables only. -/
theorem edges_of_declareData (ds : List Data) {capacity : Size} {types : TypeLookup}
    {a a' : Automaton} (h : a.declareData capacity types ds = .ok a') :
    a'.edges = a.edges ∧ a'.name = a.name := by
  have hvars : ∀ (vs : List Variable) {a a' : Automaton},
      vs.foldlM Automaton.addVariable a = .ok a' → a'.edges = a.edges ∧ a'.name = a.name := by
    intro vs
    induction vs with
    | nil =>
      rintro a a' ⟨⟩
      exact ⟨rfl, rfl⟩
    | cons v vs ih =>
      intro a a' h
      rw [List.foldlM_cons, Result.bind_eq_ok] at h
      obtain ⟨a₁, hfirst, hrest⟩ := h
      obtain ⟨-, rfl⟩ := Automaton.addVariable_eq_ok.1 hfirst
      obtain ⟨hedges, hname⟩ := ih hrest
      exact ⟨hedges, hname⟩
  induction ds generalizing a with
  | nil =>
    cases h
    exact ⟨rfl, rfl⟩
  | cons d ds ih =>
    simp only [Automaton.declareData, Result.bind_eq_ok] at h
    obtain ⟨vs, -, a₁, hfirst, hrest⟩ := h
    obtain ⟨hedges, hname⟩ := hvars vs hfirst
    obtain ⟨hedges', hname'⟩ := ih hrest
    exact ⟨hedges'.trans hedges, hname'.trans hname⟩

/-- The **start** adds edges that send or are quiet. -/
theorem start_edges {a a' : Automaton} (h : (c.start setting a).Yields es a' es') :
    es.Extends a.name es' ∧ a'.name = a.name ∧ ∃ rest,
      (∀ e ∈ rest, e.SendsOrQuiet es' a.name) ∧ a'.edges = a.edges ++ rest := by
  obtain ⟨first, -, ⟨-, rfl, rfl⟩ | ⟨-, body, hbody, rfl⟩⟩ := yields_start.1 h
  · exact ⟨.refl _ _, rfl, [], by simp, by simp⟩
  · obtain ⟨hext, hedges⟩ := BodyScope.compile_sendOrQuiet hbody (quiet_digest _)
    refine ⟨hext, by simp, _, ?_, by simp [Body.startingWith]; rfl⟩
    simp only [List.mem_cons, forall_eq_or_imp]
    exact ⟨⟨_, rfl, .inr (Quiet.action (quiet_digest _))⟩, hedges⟩

/-- The **edges of a compiled chart**: those of its parts, the loops, and those of the start. -/
theorem compile_parts {a : Automaton} (h : (c.compile setting).Yields es a es') :
    es.Extends c.name es' ∧ a.name = c.name ∧ (c.states.map (·.id)).Nodup ∧
      ∃ (parts : List StatePart) (rest : List Edge), parts.map (·.state) = c.states ∧
        (∀ p ∈ parts, c.IsPart setting c.name es' p) ∧
        (∀ e ∈ rest, e.SendsOrQuiet es' c.name) ∧
        a.edges = parts.flatMap (·.edges) ++
          (if c.isRoot then [] else loops (parts.map (·.record))) ++ rest := by
  obtain ⟨hcheck, -, a₀, a₁, records, es₁, hdata, hstates, hstart⟩ := yields_compile.1 h
  obtain ⟨hedges₀, hname₀⟩ := edges_of_declareData _ hdata
  obtain ⟨hext, hname₁, parts, hmap, hrecords, hparts, hedges₁⟩ := allStates_parts _ hstates
  obtain ⟨hext', hname₂, rest, hrest, hedges₂⟩ := start_edges hstart
  have hname : ∀ edges : List Edge, (if c.isRoot then a₁ else a₁.addEdges edges).name = c.name := by
    intro edges
    split <;> simp [hname₁, hname₀]
  simp only [hname] at hext' hname₂ hrest
  rw [hname₀] at hext hparts
  refine ⟨hext.trans hext', hname₂, (nodup_of_checkStates _ hcheck).1, parts, rest, hmap, ?_, hrest,
    ?_⟩
  · exact fun p hp => (hparts p hp).mono hext'
  · rw [hedges₂]
    split <;> simp [hedges₁, hedges₀, hrecords]

end Chart

end ChartNet
