import ChartNet.Proofs.Chart.Handling
import ChartNet.Proofs.Chart.Targets
import ChartNet.Proofs.Model.Opcodes
import ChartNet.Proofs.Random.Texts

/-!
# Distributions in compiled charts

The automaton of a chart draws in a guard only if a condition that the guard is made of is written
with a distribution, in what it assigns to only if the location is, and in the type of a variable
only if the bound is (`Chart.compile_drawsFrom`). Guards gather conditions on the way: each is that
of a transition and of the transitions of its state before it, so the record of a state has to be
followed too.
-/

namespace ChartNet

namespace Chart

variable {c : Chart}

/-- The conditions and locations of a step of a chart are those of the chart. -/
theorem writtenIn_of_mem_steps {x : Step} (hx : x ∈ c.steps) :
    x.WrittenIn c.conditions c.locations where
  conditions _ ht := List.mem_append_right _ (List.mem_flatMap.2 ⟨x, hx, ht⟩)
  locations _ ht := List.mem_flatMap.2 ⟨x, hx, ht⟩

end Chart

/-! ### Types of variables -/

/-- A type **draws from** some texts if they write its random bounds. -/
def DataType.DrawsFrom (texts : List String) (t : DataType) : Prop :=
  ∀ b ∈ t.bounds, b.isRandom = true → Source.Writes texts b

namespace Data

variable {d : Data} {texts : List String}

/-- A type that is declared has no bounds. -/
theorem bounds_ofText {text : String} {capacity : Size} {declared : DeclaredType}
    (h : DeclaredType.ofText text capacity = .ok declared) : declared.type.bounds = [] := by
  simp only [DeclaredType.ofText] at h
  split at h <;> cases h <;> rfl

/-- A random bound is written. -/
theorem writes_of_boundExpr {kind : NumKind} {amount : Option Amount} {e : Option Expr}
    (h : amount.mapM (boundExpr kind) = .ok e)
    (htexts : amount.toList.filterMap Amount.text? ⊆ texts)
    {b : Expr} (hb : b ∈ e.toList) (hrandom : b.isRandom = true) : Source.Writes texts b := by
  cases amount with
  | none =>
    cases h
    simp at hb
  | some amount =>
    obtain ⟨bound, hbound, rfl⟩ : ∃ bound, boundExpr kind amount = .ok bound ∧ e = some bound := by
      cases hbound : boundExpr kind amount <;>
        simp_all [Option.mapM_some]
    obtain rfl : b = bound := by simpa using hb
    cases amount with
    | number x =>
      simp only [boundExpr] at hbound
      split at hbound
      · cases hbound
      · cases hbound
        simp at hrandom
    | source text => exact ⟨text, htexts (by simp [Amount.text?]), none, hbound⟩

/-- The types of an entry's variables draw from the bounds of the entry. -/
theorem drawsFrom_vars {capacity : Size} {types : TypeLookup} {vs : List Variable}
    (h : d.vars capacity types = .ok vs) (htexts : d.boundTexts ⊆ texts) :
    ∀ v ∈ vs, v.type.DrawsFrom texts := by
  have hunbounded : ∀ {t : DataType}, t.bounds = [] → t.DrawsFrom texts := by
    intro t ht b hb
    simp [ht] at hb
  obtain ⟨declared, hdeclared, ⟨shape, -, hvars⟩ | ⟨-, t, v, ht, hv, rfl⟩⟩ := vars_cases h
  · obtain ⟨v, lengths, rfl, -, htype, -, hlengths⟩ := exists_of_arrayVariables hvars
    refine List.forall_mem_cons.2 ⟨hunbounded (by rw [htype]; rfl), fun w hw => hunbounded ?_⟩
    obtain ⟨i, hi⟩ := hlengths w hw
    rw [hi, ArrayShape.lengthType]
    split <;> rfl
  · rw [List.forall_mem_singleton, (of_scalarVariable hv).2]
    rcases boundedType_ok ht with rfl | ⟨kind, lower, upper, hlower, hupper, rfl⟩
    · exact hunbounded (bounds_ofText hdeclared)
    · rw [boundTexts, List.filterMap_append, List.append_subset] at htexts
      exact List.forall_mem_append.2 ⟨fun _ => writes_of_boundExpr hlower htexts.1,
        fun _ => writes_of_boundExpr hupper htexts.2⟩

end Data

/-- The types of declared data draw from the bounds of the data. -/
theorem Automaton.drawsFrom_declareData {texts : List String} (ds : List Data) {capacity : Size}
    {types : TypeLookup} {a a' : Automaton} (h : a.declareData capacity types ds = .ok a')
    (htexts : ds.flatMap (·.boundTexts) ⊆ texts) (ha : ∀ v ∈ a.vars, v.type.DrawsFrom texts) :
    ∀ v ∈ a'.vars, v.type.DrawsFrom texts := by
  induction ds generalizing a with
  | nil =>
    cases h
    exact ha
  | cons d ds ih =>
    simp only [declareData, Result.bind_eq_ok] at h
    obtain ⟨vs, hvs, a₁, hadd, hrest⟩ := h
    rw [List.flatMap_cons, List.append_subset] at htexts
    refine ih hrest htexts.2 ?_
    rw [(vars_of_addVariables vs hadd).1]
    exact List.forall_mem_append.2 ⟨ha, Data.drawsFrom_vars hvs htexts.1⟩

/-! ### Records and edges -/

/-- The conditions of a record are **written** in some texts. -/
def StateRecord.WrittenIn (conditions : List String) (r : StateRecord) : Prop :=
  ∀ claim ∈ r.claims, ∀ p, claim.2 = some p → ∃ t ∈ conditions, Source.parse t = .ok p

/-- A guard after the conditions of a record draws from what these and its own condition are written
with. -/
theorem StateRecord.WrittenIn.writes {r : StateRecord} {conditions : List String}
    (hr : r.WrittenIn conditions) {event : Option String} {condition : Option Expr}
    (hcondition : ∀ p, condition = some p → ∃ t ∈ conditions, Source.parse t = .ok p)
    (h : ((guardAfter (r.conditions event) condition).withEvent event).isRandom = true) :
    ∃ p, Source.Writes conditions p ∧ p.isRandom = true ∧
      ((guardAfter (r.conditions event) condition).withEvent event).Contains p := by
  have hevent : ∀ {p}, (∃ t ∈ conditions, Source.parse t = .ok p) →
      Source.Writes conditions (p.withEvent event) := by
    rintro p ⟨t, ht, hparse⟩
    exact ⟨t, ht, event, by rw [Source.parseFor_eq, hparse]; rfl⟩
  rw [withEvent_guardAfter] at h ⊢
  refine writes_of_guardAfter (List.forall_mem_map.2 fun p hp => hevent ?_) (fun p hp => ?_) h
  · obtain ⟨⟨e, claimed⟩, hclaim, hmem⟩ := List.mem_filterMap.1 hp
    simp only [Option.ite_none_right_eq_some] at hmem
    exact hr _ hclaim p hmem.2
  · obtain ⟨q, hq, rfl⟩ := Option.map_eq_some_iff.1 hp
    exact hevent (hcondition q hq)

/-- An automaton **draws from** some texts in guards, in what it assigns to, and in the types of its
variables, and never in a probability. -/
structure Automaton.DrawsFrom (conditions locations bounds : List String) (a : Automaton) :
    Prop where
  edges : ∀ e ∈ a.edges, e.DrawsFrom conditions locations
  types : ∀ v ∈ a.vars, v.type.DrawsFrom bounds

namespace Chart

variable {c : Chart} {setting : Setting} {s : State} {es es' : Events} {a a' a'' : Automaton}
  {r r' : StateRecord}

/-- An automaton **grows drawing** from a chart: its variables stay, and so does that its edges draw
from the texts of the chart. -/
structure GrowsDrawing (c : Chart) (a a' : Automaton) : Prop where
  vars : a'.vars = a.vars
  edges : (∀ e ∈ a.edges, e.DrawsFrom c.conditions c.locations) →
    ∀ e ∈ a'.edges, e.DrawsFrom c.conditions c.locations

theorem GrowsDrawing.trans (h : c.GrowsDrawing a a') (h' : c.GrowsDrawing a' a'') :
    c.GrowsDrawing a a'' where
  vars := h'.vars.trans h.vars
  edges ha := h'.edges (h.edges ha)

theorem GrowsDrawing.of_edges (hvars : a'.vars = a.vars) (hedges : a'.edges = a.edges) :
    c.GrowsDrawing a a' where
  vars := hvars
  edges ha := hedges ▸ ha

theorem GrowsDrawing.of_addEdges {edges : List Edge} (locations : List String)
    (hedges : ∀ e ∈ edges, e.DrawsFrom c.conditions c.locations) :
    c.GrowsDrawing a ((a.addEdges edges).addLocations locations) where
  vars := by simp
  edges ha := by
    rw [Automaton.edges_addLocations, Automaton.edges_addEdges]
    exact List.forall_mem_append.2 ⟨ha, hedges⟩

/-- The bodies of a transition draw from what the chart is written with. -/
theorem bodies_drawFrom {scope : BodyScope} {t : Transition} (hs : s ∈ c.states)
    (ht : t ∈ s.transitions.getD []) (ways : List Way) {total : Float} {found : List Body}
    (hways : ∀ w ∈ ways, w.target ∈ t.goal.targets ∧ w.state ∈ c.states)
    (h : (bodies scope s t total ways).Yields es found es') :
    ∀ b ∈ found, b.head.DrawsFrom c.locations ∧
      ∀ e ∈ b.edges, e.DrawsFrom c.conditions c.locations := by
  induction ways generalizing total es found with
  | nil =>
    obtain ⟨rfl, -⟩ := yields_bodies_nil.1 h
    simp
  | cons w ws ih =>
    obtain ⟨body, es₁, others, hbody, hothers, rfl⟩ := yields_bodies_cons.1 h
    rw [List.forall_mem_cons] at hways
    have hwritten := mem_steps_of_way hs ht hways.1.1 hways.1.2
    refine List.forall_mem_cons.2 ⟨?_, ih hways.2 hothers⟩
    exact BodyScope.steps_drawFrom _ (fun x hx => writtenIn_of_mem_steps (hwritten x hx))
      rfl (by simp)
      hbody

theorem transition_drawsFrom {t : Transition} {condition : Option Expr} (hs : s ∈ c.states)
    (ht : t ∈ s.transitions.getD []) (hr : r.WrittenIn c.conditions)
    (h : (c.transition setting a r s t).Yields es (a', condition) es') :
    c.GrowsDrawing a a' ∧
      ∀ p, condition = some p → ∃ text ∈ c.conditions, Source.parse text = .ok p := by
  obtain ⟨ways, found, hways, hparsed, hfound, rfl⟩ := yields_transition.1 h
  have hplaced : ∀ w ∈ ways, w.target ∈ t.goal.targets ∧ w.state ∈ c.states := fun w hw =>
    have hmem := mem_of_ways hways w hw
    ⟨hmem.1, hmem.2.1⟩
  have hbodies := bodies_drawFrom hs ht ways hplaced hfound
  have hcondition : ∀ p, condition = some p → ∃ text ∈ c.conditions, Source.parse text = .ok p := by
    rintro p rfl
    cases hcond : t.cond with
    | none =>
      rw [hcond] at hparsed
      cases hparsed
    | some text =>
      refine ⟨text, mem_conditions hs ht hcond, ?_⟩
      rw [hcond] at hparsed
      cases hparse : Source.parse text <;> simp_all
  refine ⟨.of_addEdges _ (List.forall_mem_cons.2 ⟨⟨?_, ?_⟩, ?_⟩), hcondition⟩
  · rintro g ⟨⟩ hrandom
    exact hr.writes hcondition hrandom
  · exact List.forall_mem_map.2 fun b hb => (hbodies b hb).1
  · exact List.forall_mem_flatMap.2 fun b hb => (hbodies b hb).2

theorem transitions_drawFrom (hs : s ∈ c.states) (ts : List Transition)
    {position : Nat} {a a' : Automaton} {r r' : StateRecord}
    (hts : ∀ t ∈ ts, t ∈ s.transitions.getD []) (hr : r.WrittenIn c.conditions)
    (h : (c.transitions setting s position a r ts).Yields es (a', r') es') :
    c.GrowsDrawing a a' ∧ r'.WrittenIn c.conditions := by
  induction ts generalizing position a r es with
  | nil =>
    obtain ⟨⟨rfl, rfl⟩, -⟩ := yields_transitions_nil.1 h
    exact ⟨.of_edges rfl rfl, hr⟩
  | cons t ts ih =>
    obtain ⟨-, a₁, condition, es₁, hfirst, hrest⟩ := yields_transitions_cons.1 h
    rw [List.forall_mem_cons] at hts
    obtain ⟨hgrows, hcondition⟩ := transition_drawsFrom hs hts.1 hr hfirst
    have hr₁ : StateRecord.WrittenIn c.conditions
        { r with claims := r.claims ++ [(claimKey t.event, condition)] } :=
      List.forall_mem_append.2 ⟨hr, List.forall_mem_singleton.2 hcondition⟩
    obtain ⟨hgrows', hr'⟩ := ih hts.2 hr₁ hrest
    exact ⟨hgrows.trans hgrows', hr'⟩

theorem allStates_drawFrom (ss : List State) {a a' : Automaton} {rs : List StateRecord}
    (hss : ∀ s ∈ ss, s ∈ c.states) (h : (c.allStates setting a ss).Yields es (a', rs) es') :
    c.GrowsDrawing a a' ∧ ∀ r ∈ rs, r.WrittenIn c.conditions := by
  induction ss generalizing a es rs with
  | nil =>
    obtain ⟨⟨rfl, rfl⟩, -⟩ := yields_allStates_nil.1 h
    exact ⟨.of_edges rfl rfl, by simp⟩
  | cons s ss ih =>
    obtain ⟨a₁, r, es₁, rs', hfirst, hrest, rfl⟩ := yields_allStates_cons.1 h
    rw [List.forall_mem_cons] at hss
    have hlocated : c.GrowsDrawing a (a.addLocation s.id) := .of_edges rfl rfl
    obtain ⟨hgrows, hr⟩ := transitions_drawFrom hss.1 _ (fun _ ht => ht)
      (by simp [StateRecord.WrittenIn]) (yields_stateEdges.1 hfirst).1
    obtain ⟨hgrows', hrs⟩ := ih hss.2 hrest
    exact ⟨(hlocated.trans hgrows).trans hgrows', List.forall_mem_cons.2 ⟨hr, hrs⟩⟩

/-- The guards of loops are made of the conditions of records. -/
theorem loops_drawFrom {records : List StateRecord} {conditions locations : List String}
    (h : ∀ r ∈ records, r.WrittenIn conditions) :
    ∀ e ∈ loops records, e.DrawsFrom conditions locations := by
  intro e he
  obtain ⟨r, hr, event, hloop, -, -, hdestinations⟩ := exists_of_mem_loops he
  refine ⟨fun g hg hrandom => ?_, hdestinations ▸ List.forall_mem_singleton.2 ⟨rfl, by simp⟩⟩
  simp only [loop?] at hloop
  split at hloop
  · cases hloop
  · cases hloop
    simp only [Option.ite_none_left_eq_some] at hg
    obtain ⟨-, ⟨⟩⟩ := hg
    exact (h r hr).writes (by simp) hrandom

theorem start_drawsFrom (h : (c.start setting a).Yields es a' es') : c.GrowsDrawing a a' := by
  obtain ⟨first, hfirst, ⟨-, rfl, -⟩ | ⟨-, body, hbody, rfl⟩⟩ := yields_start.1 h
  · exact .of_edges rfl rfl
  · have hwritten := mem_steps first.onEntry (mem_of_state hfirst).1
      (by simp +contextual [State.bodies])
    obtain ⟨hhead, hedges⟩ := BodyScope.steps_drawFrom _
      (fun x hx => writtenIn_of_mem_steps (hwritten x hx)) rfl (by simp) hbody
    have hinitial : ∀ l, c.GrowsDrawing a (a.setInitial l) := fun l => .of_edges rfl rfl
    exact (hinitial _).trans (.of_addEdges _ (Body.drawsFrom_startingWith hhead hedges (by simp)))

/-- **A compiled chart draws only from what it is written with**, except in the values that it
assigns.
-/
theorem compile_drawsFrom (h : (c.compile setting).Yields es a es') :
    a.DrawsFrom c.conditions c.locations c.boundTexts := by
  obtain ⟨-, -, a₀, a₁, records, es₁, hdata, hstates, hstart⟩ := yields_compile.1 h
  have htypes : ∀ v ∈ a₀.vars, v.type.DrawsFrom c.boundTexts :=
    Automaton.drawsFrom_declareData _ hdata (List.Subset.refl _) (by simp)
  obtain ⟨hgrows, hrecords⟩ := allStates_drawFrom _ (fun _ hs => hs) hstates
  have hloops : c.GrowsDrawing a₁ (if c.isRoot then a₁ else a₁.addEdges (loops records)) := by
    split
    · exact .of_edges rfl rfl
    · exact .of_addEdges [] (loops_drawFrom hrecords)
  have hall := (hgrows.trans hloops).trans (start_drawsFrom hstart)
  refine ⟨hall.edges ?_, hall.vars ▸ htypes⟩
  simp [(edges_of_declareData _ hdata).1]

/-- All edges of a compiled chart have actions. -/
theorem action_of_compile (h : (c.compile setting).Yields es a es') :
    ∀ e ∈ a.edges, e.action ≠ none := by
  obtain ⟨-, -, -, parts, rest, -, hparts, hrest, hedges⟩ := compile_parts h
  have hsends : ∀ {e : Edge} {automaton : String}, e.SendsOrQuiet es' automaton →
    e.action ≠ none := by
    rintro e automaton ⟨action, haction, -⟩
    simp [haction]
  rw [hedges]
  refine List.forall_mem_append.2 ⟨List.forall_mem_append.2 ⟨?_, ?_⟩,
    fun e he => hsends (hrest e he)⟩
  · refine List.forall_mem_flatMap.2 fun p hp => List.forall_mem_flatMap.2 fun k hk => ?_
    obtain ⟨r, hr⟩ := (hparts p hp).clauses.compiles_of_mem hk
    exact List.forall_mem_cons.2 ⟨by simp [hr.belongs.action], fun e he => hsends (hr.rest e he)⟩
  · split
    · simp
    · intro e he
      obtain ⟨r, -, event, -, -, haction, -⟩ := exists_of_mem_loops he
      simp [haction]

end Chart

end ChartNet
