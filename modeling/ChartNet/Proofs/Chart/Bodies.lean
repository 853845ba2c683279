import ChartNet.Proofs.Chart.Sites
import ChartNet.Proofs.Chart.Targets

/-!
# Bodies of a compiled chart

What the edges of a compiled chart assign comes from the **bodies** at its sites: a destination of
the edge of a transition is the start of one, every other edge with assignments is an edge of one,
and loops assign nothing (`Chart.compile_written`). Each body was compiled with the events that were
registered until then, and from those after it the events have only grown.
-/

namespace ChartNet

/-- A body is compiled at a site **before** some events: these have grown from the ones that it
left. -/
def Site.CompilesBefore (setting : Setting) (es : Events) (p : Site) (b : Body) : Prop :=
  ∃ (a : Automaton) (es₀ es₁ : Events), es₀.names.Nodup ∧
    ((setting.scope a p.event).compile p.path p.probability p.steps).Yields es₀ b es₁ ∧ es₁.Grows es

namespace Chart

variable {c : Chart} {setting : Setting} {s : State} {es es' es'' : Events} {a a' a'' : Automaton}

/-- A body is **at a site** of a chart, before some events. -/
def HasBody (c : Chart) (setting : Setting) (es : Events) (b : Body) : Prop :=
  ∃ p ∈ c.sites setting.constants, p.CompilesBefore setting es b

theorem HasBody.mono {b : Body} (h : c.HasBody setting es b) (hgrows : es.Grows es') :
    c.HasBody setting es' b := by
  obtain ⟨p, hp, a, es₀, es₁, hn, hbody, hlater⟩ := h
  exact ⟨p, hp, a, es₀, es₁, hn, hbody, hlater.trans hgrows⟩

/-- An edge is **written** by a chart: it is an edge of a body at a site, or each of its
destinations assigns nothing or starts such a body. -/
def Writes (c : Chart) (setting : Setting) (es : Events) (e : Edge) : Prop :=
  (∃ b, c.HasBody setting es b ∧ e ∈ b.edges) ∨
    ∀ d ∈ e.destinations, d.assignments = [] ∨ ∃ b, c.HasBody setting es b ∧ d = b.head

theorem Writes.mono {e : Edge} (h : c.Writes setting es e) (hgrows : es.Grows es') :
    c.Writes setting es' e := by
  rcases h with ⟨b, hb, he⟩ | h
  · exact .inl ⟨b, hb.mono hgrows, he⟩
  · refine .inr fun d hd => (h d hd).imp_right ?_
    rintro ⟨b, hb, hhead⟩
    exact ⟨b, hb.mono hgrows, hhead⟩

/-- A part of a compilation **writes**: events grow, and what was written is, and nothing else. -/
structure GrowsWriting (c : Chart) (setting : Setting) (a : Automaton) (es : Events)
    (a' : Automaton) (es' : Events) : Prop where
  grows : es.Grows es'
  written : (∀ e ∈ a.edges, c.Writes setting es e) → ∀ e ∈ a'.edges, c.Writes setting es' e

theorem GrowsWriting.trans (h : c.GrowsWriting setting a es a' es')
    (h' : c.GrowsWriting setting a' es' a'' es'') : c.GrowsWriting setting a es a'' es'' where
  grows := h.grows.trans h'.grows
  written ha := h'.written (h.written ha)

theorem GrowsWriting.of_edges (hedges : a'.edges = a.edges) :
    c.GrowsWriting setting a es a' es where
  grows := .refl es
  written ha := hedges ▸ ha

theorem GrowsWriting.of_addEdges {edges : List Edge} (locations : List String)
    (hgrows : es.Grows es') (hedges : ∀ e ∈ edges, c.Writes setting es' e) :
    c.GrowsWriting setting a es ((a.addEdges edges).addLocations locations) es' where
  grows := hgrows
  written ha := by
    rw [Automaton.edges_addLocations, Automaton.edges_addEdges]
    exact List.forall_mem_append.2 ⟨fun e he => (ha e he).mono hgrows, hedges⟩

/-- The bodies of a transition are compiled at its sites. -/
theorem bodies_hasBody {t : Transition} (ways : List Way) {total : Float} {found : List Body}
    (hn : es.names.Nodup)
    (h : (bodies (setting.scope a t.event) s t total ways).Yields es found es') :
    es.Grows es' ∧ ∀ b ∈ found, ∃ p ∈ sitesFrom s t total ways, p.CompilesBefore setting es' b := by
  induction ways generalizing total es found with
  | nil =>
    obtain ⟨rfl, rfl⟩ := yields_bodies_nil.1 h
    exact ⟨.refl _, by simp⟩
  | cons w ws ih =>
    obtain ⟨body, es₁, others, hbody, hothers, rfl⟩ := yields_bodies_cons.1 h
    obtain ⟨hgrows, -⟩ := BodyScope.steps_known _ hn (by simp) hbody
    obtain ⟨hgrows', hplaced⟩ := ih (hgrows.nodup hn) hothers
    refine ⟨hgrows.trans hgrows', List.forall_mem_cons.2 ⟨?_, fun b hb => ?_⟩⟩
    · exact ⟨_, List.mem_cons_self, a, es, es₁, hn, hbody, hgrows'⟩
    · obtain ⟨p, hp, hcompiles⟩ := hplaced b hb
      exact ⟨p, List.mem_cons_of_mem _ hp, hcompiles⟩

theorem transition_growsWriting {r : StateRecord} {t : Transition} {condition : Option Expr}
    (hn : es.names.Nodup) (hs : s ∈ c.states) (ht : t ∈ s.transitions.getD [])
    (h : (c.transition setting a r s t).Yields es (a', condition) es') :
    c.GrowsWriting setting a es a' es' := by
  obtain ⟨ways, found, hways, -, hfound, rfl⟩ := yields_transition.1 h
  have hreceived := grows_received es a.name s.id t
  obtain ⟨hgrows, hplaced⟩ := bodies_hasBody ways (hreceived.nodup hn) hfound
  have hbody : ∀ b ∈ found, c.HasBody setting es' b := by
    intro b hb
    obtain ⟨p, hp, hcompiles⟩ := hplaced b hb
    refine ⟨p, List.mem_append_left _ (List.mem_flatMap.2 ⟨s, hs, List.mem_flatMap.2 ⟨t, ht, ?_⟩⟩),
      hcompiles⟩
    rwa [transitionSites, hways]
  refine .of_addEdges _ (hreceived.trans hgrows) (List.forall_mem_cons.2 ⟨.inr ?_, fun e he => ?_⟩)
  · exact List.forall_mem_map.2 fun b hb => .inr ⟨b, hbody b hb, rfl⟩
  · obtain ⟨b, hb, he⟩ := List.mem_flatMap.1 he
    exact .inl ⟨b, hbody b hb, he⟩

theorem transitions_growsWriting (hs : s ∈ c.states) (ts : List Transition) {position : Nat}
    {a a' : Automaton} {r r' : StateRecord} (hn : es.names.Nodup)
    (hts : ∀ t ∈ ts, t ∈ s.transitions.getD [])
    (h : (c.transitions setting s position a r ts).Yields es (a', r') es') :
    c.GrowsWriting setting a es a' es' := by
  induction ts generalizing position a r es with
  | nil =>
    obtain ⟨⟨rfl, -⟩, rfl⟩ := yields_transitions_nil.1 h
    exact .of_edges rfl
  | cons t ts ih =>
    obtain ⟨-, a₁, condition, es₁, hfirst, hrest⟩ := yields_transitions_cons.1 h
    rw [List.forall_mem_cons] at hts
    have hgrows := transition_growsWriting hn hs hts.1 hfirst
    exact hgrows.trans (ih (hgrows.grows.nodup hn) hts.2 hrest)

theorem allStates_growsWriting (ss : List State) {a a' : Automaton} {rs : List StateRecord}
    (hn : es.names.Nodup) (hss : ∀ s ∈ ss, s ∈ c.states)
    (h : (c.allStates setting a ss).Yields es (a', rs) es') :
    c.GrowsWriting setting a es a' es' := by
  induction ss generalizing a es rs with
  | nil =>
    obtain ⟨⟨rfl, -⟩, rfl⟩ := yields_allStates_nil.1 h
    exact .of_edges rfl
  | cons s ss ih =>
    obtain ⟨a₁, r, es₁, rs', hfirst, hrest, -⟩ := yields_allStates_cons.1 h
    rw [List.forall_mem_cons] at hss
    have hlocated : c.GrowsWriting setting a es (a.addLocation s.id) es := .of_edges rfl
    have hgrows := hlocated.trans
      (transitions_growsWriting hss.1 _ hn (fun _ ht => ht) (yields_stateEdges.1 hfirst).1)
    exact hgrows.trans (ih (hgrows.grows.nodup hn) hss.2 hrest)

/-- Loops assign nothing. -/
theorem loops_written (records : List StateRecord) :
    ∀ e ∈ loops records, c.Writes setting es e := by
  intro e he
  obtain ⟨r, -, event, -, -, -, hdestinations⟩ := exists_of_mem_loops he
  exact .inr (hdestinations ▸ List.forall_mem_singleton.2 (.inl rfl))

theorem start_growsWriting (hn : es.names.Nodup) (h : (c.start setting a).Yields es a' es') :
    c.GrowsWriting setting a es a' es' := by
  obtain ⟨first, hfirst, ⟨-, rfl, rfl⟩ | ⟨hentry, body, hbody, rfl⟩⟩ := yields_start.1 h
  · exact .of_edges rfl
  · have hsites := startSites_of_state hfirst
    obtain ⟨hgrows, -⟩ := BodyScope.steps_known _ hn (by simp) hbody
    have hplaced : c.HasBody setting es' body := by
      refine ⟨.start first, List.mem_append_right _ ?_, a, es, es', hn, hbody, .refl _⟩
      simpa [hsites] using hentry
    have hinitial : ∀ l, c.GrowsWriting setting a es (a.setInitial l) es := fun l => .of_edges rfl
    refine (hinitial _).trans (.of_addEdges _ hgrows (List.forall_mem_cons.2 ⟨.inr ?_, ?_⟩))
    · exact List.forall_mem_singleton.2 (.inr ⟨body, hplaced, rfl⟩)
    · exact fun e he => .inl ⟨body, hplaced, he⟩

/-- **What a compiled chart assigns is written by the bodies at its sites.** -/
theorem compile_written (hn : es.names.Nodup) (h : (c.compile setting).Yields es a es') :
    ∀ e ∈ a.edges, c.Writes setting es' e := by
  obtain ⟨-, -, a₀, a₁, records, es₁, hdata, hstates, hstart⟩ := yields_compile.1 h
  have hgrows := allStates_growsWriting _ hn (fun _ hs => hs) hstates
  have hloops : c.GrowsWriting setting a₁ es₁ (if c.isRoot then a₁ else a₁.addEdges (loops records))
      es₁ := by
    split
    · exact .of_edges rfl
    · exact .of_addEdges [] (.refl es₁) (loops_written records)
  have hall := (hgrows.trans hloops).trans (start_growsWriting (hgrows.grows.nodup hn) hstart)
  refine hall.written ?_
  simp [(edges_of_declareData _ hdata).1]

end Chart

end ChartNet
