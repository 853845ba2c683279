import ChartNet.Proofs.Chart.Handling
import ChartNet.Proofs.Number.Sums

/-!
# Probabilities in compiled charts

The targets of a transition have positive probabilities that add up to one, up to the tolerance. The
edge of the transition has a destination for each target, in their order and with their
probabilities. Everything else that a chart is compiled to is **certain**: the edges of bodies, the
loops and the start have one destination, of probability one (`Chart.probabilities_of_compile`).
-/

namespace ChartNet

/-! ### Probabilities of targets -/

/-- Probabilities **add up** to one: all are positive, and their sum, from the left, misses one by
no more than the tolerance. -/
structure AddUp (ps : List Float) : Prop where
  positive : ∀ p ∈ ps, 0 < p
  sum : (1 - ps.foldl (· + ·) 0).abs ≤ 1e-6

section Targets

variable {constants : Constants} {targets : List Target}

/-- A probability that is accepted is positive. -/
theorem pos_of_probability {t : Target} {total p : Float}
    (h : t.probability constants total = .ok p) : 0 < p := by
  have hcheck : ∀ x : Result Float, (do
      let p ← x
      if p > 0 then return p else failModel (.probabilityNotPositive t.target p)) =
        .ok p → 0 < p := by
    intro x hx
    obtain ⟨q, -, hq⟩ := Result.bind_eq_ok.1 hx
    split at hq
    · cases hq
      assumption
    · cases hq
  unfold Target.probability at h
  split at h
  · exact hcheck _ h
  · exact hcheck _ h

/-- The total is the sum of what is given and the probabilities, which are positive. -/
theorem probabilitiesFrom_ok {total sum : Float} {ps : List Float}
    (h : probabilitiesFrom constants total targets = .ok (ps, sum)) :
    ps.length = targets.length ∧ (∀ p ∈ ps, 0 < p) ∧ sum = ps.foldl (· + ·) total := by
  induction targets generalizing total ps with
  | nil =>
    cases h
    simp
  | cons t ts ih =>
    simp only [probabilitiesFrom, Result.bind_eq_ok] at h
    obtain ⟨p, hp, ⟨qs, sum'⟩, hrest, heq⟩ := h
    cases heq
    obtain ⟨hlength, hpositive, hsum⟩ := ih hrest
    exact ⟨by simp [hlength], List.forall_mem_cons.2 ⟨pos_of_probability hp, hpositive⟩, hsum⟩

/-- **The probabilities of targets add up to one**, and there is one for each target. -/
theorem addUp_of_targetProbabilities {ps : List Float}
    (h : targetProbabilities constants targets = .ok ps) :
    ps.length = targets.length ∧ AddUp ps := by
  obtain ⟨⟨qs, sum⟩, hfrom, h⟩ := Result.bind_eq_ok.1 h
  dsimp only at h
  split at h
  · cases h
  · rename_i hclose
    cases h
    obtain ⟨hlength, hpositive, rfl⟩ := probabilitiesFrom_ok hfrom
    have hzero : Number.sign? (0 : Float).toModel.unpack = some .positive := by
      rw [Number.unpack_of_dyadic? Number.dyadic?_zero]
      rfl
    have htolerance : Number.dyadic? probabilityTolerance = some ⟨false, 4722366482869645, -72⟩ :=
      rfl
    exact ⟨hlength, hpositive, Number.abs_one_sub_le (Number.sign?_foldl_add hpositive hzero)
      htolerance rfl (by decide) hclose⟩

end Targets

/-! ### Certain edges -/

/-- An edge is **certain** if it has one destination, of probability one. -/
def Edge.Certain (e : Edge) : Prop :=
  e.destinations.map (·.probability) = [.real 1]

/-- A body on an edge of its own is certain if its own edges are. -/
theorem Body.certain_startingWith {b : Body} (hhead : b.head.probability = .real 1)
    (hedges : ∀ e ∈ b.edges, e.Certain) {location action : String} {guard : Option Expr} :
    ∀ e ∈ (b.startingWith location action guard).edges, e.Certain := by
  simp only [startingWith, List.forall_mem_cons]
  exact ⟨by simp [Edge.Certain, hhead], hedges⟩

namespace BodyScope

variable {s : BodyScope}

mutual

/-- **The edges of steps are certain**, and the edge that they start on keeps its probability. -/
theorem steps_certain : ∀ (steps : List Step) {path : BodyPath} {probability : Expr}
    {assignments : List Assignment} {i : Nat} {events events' : Events} {body : Body},
    (s.steps path probability assignments i steps).Yields events body events' →
      body.head.probability = probability ∧ ∀ e ∈ body.edges, e.Certain
  | [], _, _, _, _, _, _, _, h => by
    obtain ⟨rfl, -⟩ := yields_steps_nil.1 h
    simp [Body.finish]
  | .assign location expr :: rest, _, _, _, _, _, _, _, h => by
    obtain ⟨added, -, hrest⟩ := yields_steps_assign.1 h
    exact steps_certain rest hrest
  | .send event params :: rest, _, _, _, _, _, _, _, h => by
    obtain ⟨sent, events₁, next, -, hrest, rfl⟩ := yields_steps_send.1 h
    obtain ⟨hhead, hedges⟩ := steps_certain rest hrest
    exact ⟨rfl, Body.certain_startingWith hhead hedges⟩
  | .choose branches other :: rest, _, _, _, _, _, _, _, h => by
    obtain ⟨conditions, taken, events₁, last, events₂, next, hb, ho, hrest, rfl⟩ :=
      yields_steps_choose.1 h
    obtain ⟨hlast, hlastEdges⟩ := otherwise_certain other ho
    obtain ⟨hhead, hedges⟩ := steps_certain rest hrest
    exact ⟨rfl, List.forall_mem_append.2 ⟨List.forall_mem_append.2
      ⟨branches_certain branches hb, Body.certain_startingWith hlast hlastEdges⟩,
        Body.certain_startingWith hhead hedges⟩⟩

/-- The edges of branches are certain. -/
theorem branches_certain : ∀ (branches : List (String × List Step)) {fork : Fork}
    {events events' : Events} {previous joint : List Expr} {taken : Fragment},
    (s.branches fork previous branches).Yields events (joint, taken) events' →
      ∀ e ∈ taken.edges, e.Certain
  | [], _, _, _, _, _, _, h => by
    obtain ⟨⟨-, rfl⟩, -⟩ := yields_branches_nil.1 h
    simp
  | (text, steps) :: rest, _, _, _, _, _, _, h => by
    obtain ⟨condition, body, events₁, others, -, hbody, hrest, rfl⟩ := yields_branches_cons.1 h
    obtain ⟨hhead, hedges⟩ := steps_certain steps hbody
    exact List.forall_mem_append.2
      ⟨Body.certain_startingWith hhead hedges, branches_certain rest hrest⟩

/-- What is done otherwise is certain. -/
theorem otherwise_certain : ∀ (other : Option (List Step)) {path : BodyPath}
    {events events' : Events} {body : Body}, (s.otherwise path other).Yields events body events' →
      body.head.probability = .real 1 ∧ ∀ e ∈ body.edges, e.Certain
  | none, _, _, _, _, h => by
    obtain ⟨rfl, -⟩ := yields_otherwise_none.1 h
    simp [Body.finish]
  | some steps, _, _, _, _, h => steps_certain steps (yields_otherwise_some.1 h)

end

end BodyScope

/-! ### Transitions -/

namespace Chart

variable {c : Chart} {setting : Setting} {s : State} {t : Transition} {es es' : Events}
  {a a' : Automaton} {r r' : StateRecord}

/-- The bodies of a transition start with the probabilities of its ways, one for each. -/
theorem bodies_certain {scope : BodyScope} (ways : List Way) {total : Float} {found : List Body}
    (h : (bodies scope s t total ways).Yields es found es') :
    found.map (·.head.probability) = ways.map (Expr.real ·.probability) ∧
      ∀ e ∈ found.flatMap (·.edges), e.Certain := by
  induction ways generalizing total es found with
  | nil =>
    obtain ⟨rfl, -⟩ := yields_bodies_nil.1 h
    simp
  | cons w ws ih =>
    obtain ⟨body, es₁, others, hbody, hothers, rfl⟩ := yields_bodies_cons.1 h
    obtain ⟨hhead, hedges⟩ := BodyScope.steps_certain _ hbody
    obtain ⟨hheads, hrest⟩ := ih hothers
    refine ⟨by simp [hhead, hheads], ?_⟩
    rw [List.flatMap_cons]
    exact List.forall_mem_append.2 ⟨hedges, hrest⟩

/-- The ways of a transition are its targets with their probabilities, in order. -/
theorem ways_ok {constants : Constants} {ways : List Way} (h : c.ways constants t = .ok ways) :
    ∃ ps, targetProbabilities constants t.goal.targets = .ok ps ∧
      ways.map (·.target) = t.goal.targets ∧ ways.map (·.probability) = ps := by
  obtain ⟨ps, hps, hways⟩ := Result.bind_eq_ok.1 h
  have hpairs : ways.map (fun w => (w.target, w.probability)) = t.goal.targets.zip ps := by
    rw [Result.mapM_eq_ok] at hways
    clear h
    generalize t.goal.targets.zip ps = pairs at hways
    induction hways with
    | nil => rfl
    | @cons pair w _ _ hfirst _ ih =>
      obtain ⟨state, -, hw⟩ := Result.bind_eq_ok.1 hfirst
      cases hw
      simp [ih]
  have hlength := (addUp_of_targetProbabilities hps).1
  refine ⟨ps, hps, ?_, ?_⟩
  · have := congrArg (List.map Prod.fst) hpairs
    simpa [List.map_fst_zip hlength.ge, Function.comp_def] using this
  · have := congrArg (List.map Prod.snd) hpairs
    simpa [List.map_snd_zip hlength.le, Function.comp_def] using this

/-- **The edge of a transition has the probabilities of its targets**, in their order. -/
theorem Belongs.probabilities {e : Edge} (h : c.Belongs setting s t e) :
    ∃ ps, targetProbabilities setting.constants t.goal.targets = .ok ps ∧
      e.destinations.map (·.probability) = ps.map Expr.real := by
  obtain ⟨a, ways, es, es', found, hways, hfound, hdestinations⟩ := h.destinations
  obtain ⟨ps, hps, -, hprobabilities⟩ := ways_ok hways
  refine ⟨ps, hps, ?_⟩
  rw [hdestinations, ← hprobabilities, List.map_map, List.map_map]
  exact (bodies_certain ways hfound).1

/-! ### Whole charts -/

/-- A chart **accounts** for an edge if that is the edge of a transition, or certain. -/
def Accounts (c : Chart) (setting : Setting) (e : Edge) : Prop :=
  (∃ s ∈ c.states, ∃ t ∈ s.transitions.getD [], c.Belongs setting s t e) ∨ e.Certain

theorem transition_accounts {condition : Option Expr} (hs : s ∈ c.states)
    (ht : t ∈ s.transitions.getD [])
    (h : (c.transition setting a r s t).Yields es (a', condition) es')
    (ha : ∀ e ∈ a.edges, c.Accounts setting e) : ∀ e ∈ a'.edges, c.Accounts setting e := by
  obtain ⟨ways, found, hways, -, hfound, rfl⟩ := yields_transition.1 h
  rw [Automaton.edges_addLocations, Automaton.edges_addEdges]
  refine List.forall_mem_append.2 ⟨ha, List.forall_mem_cons.2 ⟨.inl ⟨s, hs, t, ht, ?_⟩, ?_⟩⟩
  · exact ⟨rfl, rfl, a, ways, _, es', found, hways, hfound, rfl⟩
  · exact fun e he => .inr ((bodies_certain ways hfound).2 e he)

theorem transitions_account (hs : s ∈ c.states) (ts : List Transition) {position : Nat}
    {a a' : Automaton} {r r' : StateRecord} (hts : ∀ t ∈ ts, t ∈ s.transitions.getD [])
    (h : (c.transitions setting s position a r ts).Yields es (a', r') es')
    (ha : ∀ e ∈ a.edges, c.Accounts setting e) : ∀ e ∈ a'.edges, c.Accounts setting e := by
  induction ts generalizing position a r es with
  | nil =>
    obtain ⟨⟨rfl, -⟩, -⟩ := yields_transitions_nil.1 h
    exact ha
  | cons t ts ih =>
    obtain ⟨-, a₁, condition, es₁, hfirst, hrest⟩ := yields_transitions_cons.1 h
    rw [List.forall_mem_cons] at hts
    exact ih hts.2 hrest (transition_accounts hs hts.1 hfirst ha)

theorem allStates_account (ss : List State) {a a' : Automaton} {rs : List StateRecord}
    (hss : ∀ s ∈ ss, s ∈ c.states) (h : (c.allStates setting a ss).Yields es (a', rs) es')
    (ha : ∀ e ∈ a.edges, c.Accounts setting e) : ∀ e ∈ a'.edges, c.Accounts setting e := by
  induction ss generalizing a es rs with
  | nil =>
    obtain ⟨⟨rfl, -⟩, -⟩ := yields_allStates_nil.1 h
    exact ha
  | cons s ss ih =>
    obtain ⟨a₁, r, es₁, rs', hfirst, hrest, -⟩ := yields_allStates_cons.1 h
    rw [List.forall_mem_cons] at hss
    exact ih hss.2 hrest (transitions_account hss.1 _ (fun _ ht => ht)
      (yields_stateEdges.1 hfirst).1
      (by simpa using ha))

/-- Loops lead back with certainty. -/
theorem certain_loops (records : List StateRecord) : ∀ e ∈ loops records, e.Certain := by
  intro e he
  obtain ⟨r, -, event, -, -, -, hdestinations⟩ := exists_of_mem_loops he
  rw [Edge.Certain, hdestinations]
  rfl

theorem start_accounts (h : (c.start setting a).Yields es a' es')
    (ha : ∀ e ∈ a.edges, c.Accounts setting e) : ∀ e ∈ a'.edges, c.Accounts setting e := by
  obtain ⟨first, -, ⟨-, rfl, -⟩ | ⟨-, body, hbody, rfl⟩⟩ := yields_start.1 h
  · simpa using ha
  · obtain ⟨hhead, hedges⟩ := BodyScope.steps_certain _ hbody
    rw [Automaton.edges_addLocations, Automaton.edges_addEdges, Automaton.edges_setInitial]
    exact List.forall_mem_append.2
      ⟨ha, fun e he => .inr (Body.certain_startingWith hhead hedges e he)⟩

/-- **A compiled chart accounts for all its edges**, and has one for each of its transitions. -/
theorem probabilities_of_compile (h : (c.compile setting).Yields es a es') :
    (∀ e ∈ a.edges, c.Accounts setting e) ∧
      ∀ s ∈ c.states, ∀ t ∈ s.transitions.getD [], ∃ e ∈ a.edges, c.Belongs setting s t e := by
  constructor
  · obtain ⟨-, -, a₀, a₁, records, es₁, hdata, hstates, hstart⟩ := yields_compile.1 h
    refine start_accounts hstart ?_
    have ha₁ := allStates_account _ (fun _ hs => hs) hstates
      (by simp [(edges_of_declareData _ hdata).1])
    split
    · exact ha₁
    · rw [Automaton.edges_addEdges]
      exact List.forall_mem_append.2 ⟨ha₁, fun e he => .inr (certain_loops records e he)⟩
  · obtain ⟨-, -, -, parts, rest, hmap, hparts, -, hedges⟩ := compile_parts h
    intro s hs t ht
    rw [← hmap] at hs
    obtain ⟨p, hp, rfl⟩ := List.mem_map.1 hs
    rw [← (hparts p hp).transitions] at ht
    obtain ⟨k, hk, rfl⟩ := List.mem_map.1 ht
    obtain ⟨r, hr⟩ := (hparts p hp).clauses.compiles_of_mem hk
    refine ⟨k.edge, ?_, hr.belongs⟩
    rw [hedges]
    have hmem : k.edge ∈ parts.flatMap (·.edges) :=
      List.mem_flatMap.2 ⟨p, hp, List.mem_flatMap.2 ⟨k, hk, List.mem_cons_self⟩⟩
    exact List.mem_append_left _ (List.mem_append_left _ hmem)

end Chart

end ChartNet
