import ChartNet.Proofs.Chart.Transitions
import ChartNet.Proofs.Chart.Written
import ChartNet.Proofs.Order.Declared

/-!
# Charts of declared events

A chart whose events are all declared is compiled alike in registries that agree on its automaton:
it succeeds in both or in neither, gives the same automaton, and the registries agree afterwards.
Every part of a chart **simulates** itself so, from the value of a payload up to the whole chart
(`Chart.compile_simulates`). Compiled after other charts, a chart therefore gives what it gives
alone (`Chart.compile_alone`).
-/

namespace ChartNet

open Build (Simulates)
open Events (Agree)

/-! ### Bodies -/

/-- The event that a step sends, if it sends one, is declared. -/
def Step.Closed (b : Events) (step : Step) : Prop :=
  ∀ event ∈ step.events, b.Declares event

namespace BodyScope

variable {s : BodyScope} {b : Events} {automaton event : String}

theorem payloadType_eq {es ds : Events} (h : Agree b automaton es ds) (source : Source) :
    s.payloadType es source = s.payloadType ds source := by
  rw [payloadType, payloadType, h.scope]

/-- A value is assigned to the declared field, whoever is registered with the event. -/
theorem sendParam_agrees (hn : b.names.Nodup) (hb : b.Declares event) (p : Param) :
    Simulates (Agree b automaton) (s.sendParam event p) := by
  intro es ds sent es' hagree h
  obtain ⟨source, given, type, hsource, hgiven, hrecord, hassigned⟩ := yields_sendParam.1 h
  obtain ⟨rfl, hknown, hfits⟩ :=
    (EventM.yields_recordField (hagree.nodup_left hn) (hagree.declares_left hb)).1 hrecord
  have hrecord' : (EventM.recordField event p.name given).Yields ds type ds :=
    (EventM.yields_recordField (hagree.nodup_right hn) (hagree.declares_right hb)).2
      ⟨rfl, hagree.fieldType? event p.name ▸ hknown, hfits⟩
  rw [payloadType_eq hagree] at hgiven
  rw [hagree.scope] at hassigned
  exact ⟨ds, yields_sendParam.2 ⟨source, given, type, hsource, hgiven, hrecord', hassigned⟩, hagree⟩

theorem sendParams_agree (hn : b.names.Nodup) (hb : b.Declares event) (ps : List Param) :
    Simulates (Agree b automaton) (s.sendParams event ps) := by
  induction ps with
  | nil =>
    intro es ds sent es' hagree h
    obtain ⟨rfl, rfl⟩ := yields_sendParams_nil.1 h
    exact ⟨ds, yields_sendParams_nil.2 ⟨rfl, rfl⟩, hagree⟩
  | cons p ps ih =>
    intro es ds sent es' hagree h
    obtain ⟨first, es₁, others, hfirst, hothers, rfl⟩ := yields_sendParams_cons.1 h
    obtain ⟨ds₁, hfirst', hagree₁⟩ := sendParam_agrees hn hb p hagree hfirst
    obtain ⟨ds₂, hothers', hagree₂⟩ := ih hagree₁ hothers
    exact ⟨ds₂, yields_sendParams_cons.2 ⟨first, ds₁, others, hfirst', hothers', rfl⟩, hagree₂⟩

theorem send_agrees (hn : b.names.Nodup) (hb : b.Declares event) (ps : List Param) :
    Simulates (Agree b automaton) (s.send event ps) := by
  intro es ds sent es' hagree h
  obtain ⟨values, es₁, hvalues, rfl, rfl⟩ := yields_send.1 h
  rw [(hagree.declares_left hb).ensure] at hvalues
  obtain ⟨ds₁, hvalues', hagree₁⟩ := sendParams_agree hn hb ps hagree hvalues
  refine ⟨_, yields_send.2 ⟨values, ds₁, ?_, rfl, rfl⟩, hagree₁.addSender hb _ _⟩
  rwa [(hagree.declares_right hb).ensure]

mutual

/-- **Steps** whose events are declared simulate themselves. -/
theorem steps_agree (hn : b.names.Nodup) : ∀ (steps : List Step) {path : BodyPath}
    {probability : Expr} {assignments : List Assignment} {i : Nat},
    (∀ step ∈ stepsAmong steps, step.Closed b) →
    Simulates (Agree b automaton) (s.steps path probability assignments i steps)
  | [], _, _, _, _, _ => by
    intro es ds body es' hagree h
    obtain ⟨rfl, rfl⟩ := yields_steps_nil.1 h
    exact ⟨ds, yields_steps_nil.2 ⟨rfl, rfl⟩, hagree⟩
  | .assign location expr :: rest, _, _, _, _, hclosed => by
    intro es ds body es' hagree h
    rw [stepsAmong, List.forall_mem_cons] at hclosed
    obtain ⟨added, hadded, hrest⟩ := yields_steps_assign.1 h
    obtain ⟨ds', hrest', hagree'⟩ := steps_agree hn rest hclosed.2 hagree hrest
    exact ⟨ds', yields_steps_assign.2 ⟨added, hagree.scope s ▸ hadded, hrest'⟩, hagree'⟩
  | .send event params :: rest, _, _, _, _, hclosed => by
    intro es ds body es' hagree h
    rw [stepsAmong, List.forall_mem_cons] at hclosed
    obtain ⟨sent, es₁, next, hsent, hrest, rfl⟩ := yields_steps_send.1 h
    obtain ⟨ds₁, hsent', hagree₁⟩ :=
      send_agrees hn (hclosed.1 event (List.mem_singleton.2 rfl)) _ hagree hsent
    obtain ⟨ds', hrest', hagree'⟩ := steps_agree hn rest hclosed.2 hagree₁ hrest
    exact ⟨ds', yields_steps_send.2 ⟨sent, ds₁, next, hsent', hrest', rfl⟩, hagree'⟩
  | .choose branches other :: rest, _, _, _, _, hclosed => by
    intro es ds body es' hagree h
    -- branches, the rest and what follows are closed, each by itself
    rw [stepsAmong, List.forall_mem_cons, List.forall_mem_append, List.forall_mem_append] at hclosed
    obtain ⟨-, ⟨hbranchesClosed, hotherClosed⟩, hrestClosed⟩ := hclosed
    obtain ⟨conditions, taken, es₁, last, es₂, next, hbranches, hother, hrest, rfl⟩ :=
      yields_steps_choose.1 h
    obtain ⟨ds₁, hbranches', hagree₁⟩ :=
      branches_agree hn branches hbranchesClosed hagree hbranches
    obtain ⟨ds₂, hother', hagree₂⟩ := otherwise_agrees hn other hotherClosed hagree₁ hother
    obtain ⟨ds', hrest', hagree'⟩ := steps_agree hn rest hrestClosed hagree₂ hrest
    exact ⟨ds', yields_steps_choose.2
      ⟨conditions, taken, ds₁, last, ds₂, next, hbranches', hother', hrest', rfl⟩, hagree'⟩

theorem branches_agree (hn : b.names.Nodup) : ∀ (branches : List (String × List Step))
    {fork : Fork} {previous : List Expr}, (∀ step ∈ stepsAmongBranches branches, step.Closed b) →
    Simulates (Agree b automaton) (s.branches fork previous branches)
  | [], _, _, _ => by
    intro es ds found es' hagree h
    obtain ⟨⟨hconditions, htaken⟩, rfl⟩ := yields_branches_nil.1 h
    exact ⟨ds, yields_branches_nil.2 ⟨⟨hconditions, htaken⟩, rfl⟩, hagree⟩
  | (text, steps) :: rest, _, _, hclosed => by
    intro es ds found es' hagree h
    rw [stepsAmongBranches, List.forall_mem_append] at hclosed
    obtain ⟨condition, body, es₁, others, hcondition, hsteps, hrest, htaken⟩ :=
      yields_branches_cons.1 h
    obtain ⟨ds₁, hsteps', hagree₁⟩ := steps_agree hn steps hclosed.1 hagree hsteps
    obtain ⟨ds', hrest', hagree'⟩ := branches_agree hn rest hclosed.2 hagree₁ hrest
    exact ⟨ds', yields_branches_cons.2
      ⟨condition, body, ds₁, others, hcondition, hsteps', hrest', htaken⟩, hagree'⟩

theorem otherwise_agrees (hn : b.names.Nodup) : ∀ (other : Option (List Step)) {path : BodyPath},
    (∀ step ∈ stepsAmongOtherwise other, step.Closed b) →
    Simulates (Agree b automaton) (s.otherwise path other)
  | none, _, _ => by
    intro es ds body es' hagree h
    obtain ⟨rfl, rfl⟩ := yields_otherwise_none.1 h
    exact ⟨ds, yields_otherwise_none.2 ⟨rfl, rfl⟩, hagree⟩
  | some steps, _, hclosed => by
    intro es ds body es' hagree h
    rw [stepsAmongOtherwise] at hclosed
    obtain ⟨ds', h', hagree'⟩ :=
      steps_agree hn steps hclosed hagree (yields_otherwise_some.1 h)
    exact ⟨ds', yields_otherwise_some.2 h', hagree'⟩

end

end BodyScope

/-! ### Charts -/

/-- All events that a chart names are **declared**. -/
def Chart.Closed (b : Events) (c : Chart) : Prop :=
  ∀ event ∈ c.events, b.Declares event

namespace Chart

variable {c : Chart} {setting : Setting} {b : Events} {automaton : String}

theorem Closed.step (h : c.Closed b) : ∀ step ∈ c.steps, step.Closed b :=
  fun step hstep event hevent =>
    h event (List.mem_append_right _ (List.mem_flatMap.2 ⟨step, hstep, hevent⟩))

section

variable (hn : b.names.Nodup) (hc : c.Closed b)

include hn

theorem bodies_simulate {scope : BodyScope} {s : State} {t : Transition} (ways : List Way)
    (hways : ∀ w ∈ ways, ∀ step ∈ stepsAmong
      (s.onExit.getD [] ++ w.target.body.getD [] ++ w.state.onEntry.getD []), step.Closed b)
    (total : Float) : Simulates (Agree b automaton) (bodies scope s t total ways) := by
  induction ways generalizing total with
  | nil =>
    intro es ds found es' hagree h
    obtain ⟨rfl, rfl⟩ := yields_bodies_nil.1 h
    exact ⟨ds, yields_bodies_nil.2 ⟨rfl, rfl⟩, hagree⟩
  | cons w ws ih =>
    rw [List.forall_mem_cons] at hways
    intro es ds found es' hagree h
    obtain ⟨body, es₁, others, hbody, hothers, rfl⟩ := yields_bodies_cons.1 h
    obtain ⟨ds₁, hbody', hagree₁⟩ := BodyScope.steps_agree hn _ hways.1 hagree hbody
    obtain ⟨ds₂, hothers', hagree₂⟩ := ih hways.2 _ hagree₁ hothers
    exact ⟨ds₂, yields_bodies_cons.2 ⟨body, ds₁, others, hbody', hothers', rfl⟩, hagree₂⟩

include hc

/-- A **transition** registers its own automaton, and reads nothing of what others have
registered. -/
theorem transition_simulates {a : Automaton} {r : StateRecord} {s : State} {t : Transition}
    (hs : s ∈ c.states) (ht : t ∈ s.transitions.getD []) :
    Simulates (Agree b automaton) (c.transition setting a r s t) := by
  rintro es ds ⟨a', condition⟩ es' hagree h
  obtain ⟨ways, found, hways, hcondition, hfound, ha'⟩ := yields_transition.1 h
  have hclosed : ∀ w ∈ ways, ∀ step ∈ stepsAmong
      (s.onExit.getD [] ++ w.target.body.getD [] ++ w.state.onEntry.getD []), step.Closed b :=
    fun w hw step hstep =>
      have hmem := mem_of_ways hways w hw
      hc.step step (mem_steps_of_way hs ht hmem.1 hmem.2.1 step hstep)
  have hreceived : Agree b automaton (received es a.name s.id t) (received ds a.name s.id t) := by
    unfold received
    cases hevent : t.event with
    | none => exact hagree
    | some event => exact hagree.addReceiver (hc event (mem_events hs ht hevent)) _ _
  obtain ⟨ds', hfound', hagree'⟩ := bodies_simulate hn ways hclosed 0 hreceived hfound
  exact ⟨ds', yields_transition.2 ⟨ways, found, hways, hcondition, hfound', ha'⟩, hagree'⟩

theorem transitions_simulate {s : State} (hs : s ∈ c.states) (ts : List Transition)
    (hts : ∀ t ∈ ts, t ∈ s.transitions.getD []) {position : Nat} {a : Automaton} {r : StateRecord} :
    Simulates (Agree b automaton) (c.transitions setting s position a r ts) := by
  induction ts generalizing position a r with
  | nil =>
    rintro es ds ⟨a', r'⟩ es' hagree h
    obtain ⟨heq, rfl⟩ := yields_transitions_nil.1 h
    exact ⟨ds, yields_transitions_nil.2 ⟨heq, rfl⟩, hagree⟩
  | cons t ts ih =>
    rw [List.forall_mem_cons] at hts
    rintro es ds ⟨a', r'⟩ es' hagree h
    obtain ⟨hfresh, a₁, condition, es₁, hfirst, hrest⟩ := yields_transitions_cons.1 h
    obtain ⟨ds₁, hfirst', hagree₁⟩ := transition_simulates hn hc hs hts.1 hagree hfirst
    obtain ⟨ds', hrest', hagree'⟩ := ih hts.2 hagree₁ hrest
    exact ⟨ds', yields_transitions_cons.2 ⟨hfresh, a₁, condition, ds₁, hfirst', hrest'⟩, hagree'⟩

theorem allStates_simulate (ss : List State) (hss : ∀ s ∈ ss, s ∈ c.states) {a : Automaton} :
    Simulates (Agree b automaton) (c.allStates setting a ss) := by
  induction ss generalizing a with
  | nil =>
    rintro es ds ⟨a', rs⟩ es' hagree h
    obtain ⟨heq, rfl⟩ := yields_allStates_nil.1 h
    exact ⟨ds, yields_allStates_nil.2 ⟨heq, rfl⟩, hagree⟩
  | cons s ss ih =>
    rw [List.forall_mem_cons] at hss
    rintro es ds ⟨a', rs⟩ es' hagree h
    obtain ⟨a₁, r, es₁, rs', hstate, hrest, rfl⟩ := yields_allStates_cons.1 h
    obtain ⟨htransitions, hfire⟩ := yields_stateEdges.1 hstate
    obtain ⟨ds₁, htransitions', hagree₁⟩ :=
      transitions_simulate hn hc hss.1 _ (fun _ ht => ht) hagree htransitions
    obtain ⟨ds', hrest', hagree'⟩ := ih hss.2 hagree₁ hrest
    exact ⟨ds', yields_allStates_cons.2
      ⟨a₁, r, ds₁, rs', yields_stateEdges.2 ⟨htransitions', hfire⟩, hrest', rfl⟩, hagree'⟩

theorem start_simulates {a : Automaton} : Simulates (Agree b automaton) (c.start setting a) := by
  intro es ds a' es' hagree h
  obtain ⟨first, hfirst, ⟨hentry, ha', rfl⟩ | ⟨hentry, body, hbody, ha'⟩⟩ := yields_start.1 h
  · exact ⟨ds, yields_start.2 ⟨first, hfirst, .inl ⟨hentry, ha', rfl⟩⟩, hagree⟩
  · have hclosed := mem_steps first.onEntry (mem_of_state hfirst).1 fun steps h => by
      simp [State.bodies, h]
    obtain ⟨ds', hbody', hagree'⟩ := BodyScope.steps_agree hn _
      (fun x hx => hc.step x (hclosed x hx)) hagree hbody
    exact ⟨ds', yields_start.2 ⟨first, hfirst, .inr ⟨hentry, body, hbody', ha'⟩⟩, hagree'⟩

/-- **A chart of declared events** is compiled alike in registries that agree on its automaton. -/
theorem compile_simulates : Simulates (Agree b automaton) (c.compile setting) := by
  intro es ds a es' hagree h
  obtain ⟨hcheck, hfirst, a₀, a₁, records, es₁, hdata, hstates, hstart⟩ := yields_compile.1 h
  rw [hagree.variableType?] at hdata
  obtain ⟨ds₁, hstates', hagree₁⟩ :=
    allStates_simulate hn hc c.states (fun _ hs => hs) hagree hstates
  obtain ⟨ds', hstart', hagree'⟩ := start_simulates hn hc hagree₁ hstart
  exact ⟨ds', yields_compile.2 ⟨hcheck, hfirst, a₀, a₁, records, ds₁, hdata, hstates',
    hstart'⟩, hagree'⟩

/-- **A chart of declared events gives the same automaton after other charts as alone**, that is in
the bare events. What it registers alone is added to what was registered before. -/
theorem compile_alone (hbare : b.bare = b) {es es' : Events} {a : Automaton} (hes : es.bare = b)
    (hnew : ∀ role event, ¬ es.Registers role event c.name)
    (h : (c.compile setting).Yields es a es') :
    ∃ alone, (c.compile setting).Yields b a alone ∧ es'.bare = b ∧ ∀ role event x,
      es'.Registers role event x ↔ es.Registers role event x ∨ alone.Registers role event x := by
  have hagree : Agree b c.name es b :=
    ⟨hes, hbare, fun role event =>
      iff_of_false (hnew role event) (Events.not_registers_of_bare hbare)⟩
  obtain ⟨alone, halone, hagree'⟩ := compile_simulates hn hc hagree h
  refine ⟨alone, halone, hagree'.left, fun role event x => ⟨fun hx => ?_, ?_⟩⟩
  · rcases (compile_parts h).1.added hx with hold | rfl
    · exact .inl hold
    · exact .inr ((hagree'.registers role event).1 hx)
  · rintro (hold | hx)
    · exact (compile_parts h).1.kept hold
    · rcases (compile_parts halone).1.added hx with hnone | rfl
      · exact absurd hnone (Events.not_registers_of_bare hbare)
      · exact (hagree'.registers role event).2 hx

/-- What a chart gives alone, it also gives after other charts. -/
theorem exists_compile_of_alone (hbare : b.bare = b) {es alone : Events} {a : Automaton}
    (hes : es.bare = b) (hnew : ∀ role event, ¬ es.Registers role event c.name)
    (h : (c.compile setting).Yields b a alone) : ∃ es', (c.compile setting).Yields es a es' := by
  have hagree : Agree b c.name b es :=
    ⟨hbare, hes, fun role event =>
      iff_of_false (Events.not_registers_of_bare hbare) (hnew role event)⟩
  obtain ⟨es', h', -⟩ := compile_simulates hn hc hagree h
  exact ⟨es', h'⟩

end

end Chart

end ChartNet
