import ChartNet.Proofs.Chart.Probabilities
import ChartNet.Proofs.History.Compositions

/-!
# Refused requests

The events, a composition, an automaton and a model are built by **requests**, each of which may be
refused; a transition asks to be compiled on the events and into the automaton of its chart. A
refused request leaves the state as it was (`Request.after_of_refused`). The one exception are
payloads of events that were not declared: their fields are merged one by one, and what was merged
before the field that does not fit stays. Setting a composition changes the model before the
composition is completed, but once the elements are the automata nothing can fail there.
-/

namespace ChartNet

/-! ### Requests -/

/-- The **components** of a compilation that requests change. -/
inductive Component where
  | events | composition | automaton | model | chart

/-- The **state** of a component; a chart is compiled on the events and into its automaton. -/
@[reducible] def Component.State : Component → Type
  | events => Events
  | composition => Composition
  | automaton => Automaton
  | model => Model
  | chart => Events × Automaton

/-- A state is **distinct** if events, or automata, have different names, as they have in every
state that comes up. -/
def Component.Distinct : (component : Component) → component.State → Prop
  | events, es => es.names.Nodup
  | model, m => m.names.Nodup
  | _, _ => True

/-- Compiles a transition into the automaton of its chart. -/
def Chart.addTransition (c : Chart) (setting : Setting) (r : StateRecord) (s : State)
    (t : Transition) :
    Build (Events × Automaton) Unit :=
  ExceptT.mk fun (es, a) =>
    match ((c.transition setting a r s t).run.run es).run with
    | (.ok (a', _), es') => (.ok (), (es', a'))
    | (.error e, es') => (.error e, (es', a))

/-- A **request** to a component. -/
inductive Request : Component → Type where
  | declare (name : String) (fields : List (String × DataType)) : Request .events
  | recordPayload (name : String) (payload : List (String × DataType)) : Request .events
  | addElement (automaton : String) : Request .composition
  | addSync (result : String) (participants : List (String × String)) : Request .composition
  | addVariable (v : Variable) : Request .automaton
  | addGlobal (v : Variable) : Request .model
  | addConstant (c : Constant) : Request .model
  | addAutomaton (a : Automaton) : Request .model
  | addProperty (p : Property) : Request .model
  | setComposition (c : Composition) : Request .model
  | transition (c : Chart) (setting : Setting) (r : StateRecord) (s : State) (t : Transition) :
      Request .chart

namespace Request

variable {component : Component}

/-- The **build** that a request asks for. -/
def build : Request component → Build component.State Unit
  | declare name fields => .change (Events.declare · name fields)
  | recordPayload name payload => ExceptT.mk (Events.recordPayload · name payload)
  | addElement x => .change (Composition.addElement · x)
  | addSync result participants => .change (Composition.addSync · result participants)
  | addVariable v => .change (Automaton.addVariable · v)
  | addGlobal v => (Model.Operation.addVariable v).build
  | addConstant c => (Model.Operation.addConstant c).build
  | addAutomaton a => (Model.Operation.addAutomaton a).build
  | addProperty p => (Model.Operation.addProperty p).build
  | setComposition c => (Model.Operation.setComposition c).build
  | transition c setting r s t => c.addTransition setting r s t

/-- How requests are **refused**: a transition by its probabilities or by a target that is no state,
any other request in any way. -/
def RefusedBy : Request component → component.State → Prop
  | transition c setting _ _ t, _ =>
    (¬ ∃ ps, targetProbabilities setting.constants t.goal.targets = .ok ps) ∨
      ∃ target ∈ t.goal.targets, c.state? target.target = none
  | r, s => r.build.succeeds s = false

/-- What a refused payload of an event that was not declared **leaves**: the event with the fields
before one that does not fit. -/
def Leaves : Request component → component.State → component.State → Prop
  | recordPayload name payload, es, es' =>
    ∃ e e' before field type after, (es.ensure name).get? name = some e ∧ e.declared = false ∧
      payload = before ++ (field, type) :: after ∧ e.recordPayload before = (.ok (), e') ∧
      (¬ ∃ e'', e'.recordField field type = .ok e'') ∧
      es' = (es.ensure name).modify name fun _ => e'
  | _, _, _ => False

end Request

/-! ### Payloads -/

namespace Event

variable {e e' : Event} {payload : List (String × DataType)} {err : CompileError}

/-- A payload that is refused is recorded up to a field that does not fit. -/
theorem recordPayload_eq_error (h : e.recordPayload payload = (.error err, e')) :
    ∃ before field type after, payload = before ++ (field, type) :: after ∧
      e.recordPayload before = (.ok (), e') ∧ e'.recordField field type = .error err := by
  induction payload generalizing e with
  | nil => cases h
  | cons p payload ih =>
    rw [recordPayload] at h
    split at h <;> rename_i hfield
    · obtain ⟨before, field, type, after, rfl, hbefore, hrefused⟩ := ih h
      refine ⟨p :: before, field, type, after, rfl, ?_, hrefused⟩
      rw [recordPayload, hfield]
      exact hbefore
    · cases h
      exact ⟨[], p.1, p.2, payload, rfl, rfl, hfield⟩

/-- A declared event stays as it is, whatever is sent with it. -/
theorem recordPayload_of_declared (h : e.declared = true) (payload : List (String × DataType)) :
    (e.recordPayload payload).2 = e := by
  induction payload with
  | nil => rfl
  | cons p payload ih =>
    rw [recordPayload]
    split <;> rename_i hfield
    · obtain ⟨rfl, -⟩ := (recordField_of_declared h).1 hfield
      exact ih
    · rfl

end Event

/-! ### Transitions -/

namespace Chart

variable {c : Chart}

/-- The ways of a transition can be found if its probabilities are right and its targets are
states. -/
theorem exists_ways_iff {constants : Constants} {t : Transition} :
    (∃ ways, c.ways constants t = .ok ways) ↔
      (∃ ps, targetProbabilities constants t.goal.targets = .ok ps) ∧
        ∀ target ∈ t.goal.targets, c.state? target.target ≠ none := by
  have hstate {id : String} : (∃ s, c.state id = .ok s) ↔ c.state? id ≠ none := by
    unfold state
    cases c.state? id <;> simp [failModel]
  simp only [ways, Result.exists_bind_eq_ok, Result.exists_mapM_eq_ok, Result.exists_pure_eq_ok,
    and_true, hstate]
  constructor
  · rintro ⟨ps, hps, hstates⟩
    refine ⟨⟨ps, hps⟩, fun target htarget => ?_⟩
    rw [← List.map_fst_zip (addUp_of_targetProbabilities hps).1.ge] at htarget
    obtain ⟨p, hp, rfl⟩ := List.mem_map.1 htarget
    exact hstates p hp
  · rintro ⟨⟨ps, hps⟩, hstates⟩
    exact ⟨ps, hps, fun p hp => hstates _ (List.of_mem_zip hp).1⟩

/-- **A transition without ways is refused at once**: its event gets no receiver. -/
theorem fails_transition {setting : Setting} {a : Automaton} {r : StateRecord} {s : State}
    {t : Transition} {e : CompileError} (h : c.ways setting.constants t = .error e) (es : Events) :
    (c.transition setting a r s t).Fails es e es := by
  unfold transition
  exact Build.fails_bind.2 (.inl (Build.fails_ofResult.2 ⟨h, rfl⟩))

theorem fails_addTransition {setting : Setting} {a : Automaton} {r : StateRecord} {s : State}
    {t : Transition} {e : CompileError} (h : c.ways setting.constants t = .error e) (es : Events) :
    (c.addTransition setting r s t).Fails (es, a) e (es, a) := by
  have hrun := fails_transition (a := a) (r := r) (s := s) h es
  unfold Build.Fails at hrun ⊢
  have hadd : ((c.addTransition setting r s t).run.run (es, a)).run =
      match ((c.transition setting a r s t).run.run es).run with
      | (.ok (a', _), es') => (.ok (), (es', a'))
      | (.error e, es') => (.error e, (es', a)) := rfl
  rw [hadd, hrun]

end Chart

namespace Request

variable {component : Component}

/-- The state after requests in turn, refused ones included. -/
def run (s : component.State) (requests : List (Request component)) : component.State :=
  requests.foldl (fun s r => r.build.after s) s

/-- Names stay distinct, whether a request is refused or not. -/
theorem distinct_after (r : Request component) {s : component.State} (hs : component.Distinct s) :
    component.Distinct (r.build.after s) := by
  cases r with
  | declare name fields =>
    rcases Build.after_change (Events.declare · name fields) s with ⟨-, hdeclare⟩ | ⟨-, hsame⟩
    · obtain ⟨hnew, hafter⟩ := Events.declare_eq_ok.1 hdeclare
      have hafter' : (declare name fields).build.after s = ⟨s.all ++ [Event.declare name fields]⟩ :=
        hafter
      rw [hafter']
      exact Events.nodup_names_snoc hnew hs
    · have hafter : (declare name fields).build.after s = s := hsame
      rw [hafter]
      exact hs
  | recordPayload name payload => exact (Events.extends_recordPayload "" s name payload).nodup hs
  | addGlobal v => exact ((Model.Operation.addVariable v).effect s).nodup hs
  | addConstant c => exact ((Model.Operation.addConstant c).effect s).nodup hs
  | addAutomaton a => exact ((Model.Operation.addAutomaton a).effect s).nodup hs
  | addProperty p => exact ((Model.Operation.addProperty p).effect s).nodup hs
  | setComposition c => exact ((Model.Operation.setComposition c).effect s).nodup hs
  | _ => trivial

theorem distinct_run (requests : List (Request component)) {s : component.State}
    (hs : component.Distinct s) : component.Distinct (run s requests) := by
  induction requests generalizing s with
  | nil => exact hs
  | cons r requests ih => exact ih (r.distinct_after hs)

/-- **A refused payload** leaves the events as they were if the event was declared, and otherwise
the event with the fields before one that does not fit. -/
theorem after_recordPayload_of_refused {es : Events} (hn : es.names.Nodup) {name : String}
    {payload : List (String × DataType)} (h :
      (recordPayload name payload).build.succeeds es = false) :
    (recordPayload name payload).build.after es = es ∨
      (recordPayload name payload).Leaves es ((recordPayload name payload).build.after es) := by
  have hrecord : (recordPayload name payload).build.after es = (es.recordPayload name payload).2 :=
    rfl
  obtain ⟨e, he⟩ := Events.exists_get?_ensure es name
  obtain ⟨r, e', hpayload⟩ : ∃ r e', e.recordPayload payload = (r, e') := ⟨_, _, rfl⟩
  have hevents : es.recordPayload name payload = (r, (es.ensure name).modify name fun _ => e') := by
    simp [Events.recordPayload, he, hpayload]
  rw [hrecord, hevents]
  cases r with
  | ok u =>
    have hsucceeds : (recordPayload name payload).build.succeeds es =
        (es.recordPayload name payload).1.toOption.isSome := rfl
    simp [hsucceeds, hevents, Except.toOption] at h
  | error err =>
    cases hdeclared : e.declared with
    | true =>
      obtain rfl : e' = e := by
        rw [← Event.recordPayload_of_declared hdeclared payload, hpayload]
      -- an event that had to be added would not be declared
      have hthere : es.Declares name := by
        rw [Events.get?_ensure] at he
        split at he
        · cases he
          cases hdeclared
        · exact ⟨e', he, hdeclared⟩
      rw [hthere.ensure] at he ⊢
      exact .inl (Events.modify_self hn he)
    | false =>
      obtain ⟨before, field, type, after, hsplit, hbefore, hrefused⟩ :=
        Event.recordPayload_eq_error hpayload
      refine .inr ⟨e, e', before, field, type, after, he, hdeclared, hsplit, hbefore, ?_, rfl⟩
      rintro ⟨e'', hok⟩
      cases hrefused.symm.trans hok

/-- Setting a composition is refused only for its elements, before anything is changed. -/
theorem after_setComposition_of_refused {m : Model} (hn : m.names.Nodup) {c : Composition}
    (h : (setComposition c).build.succeeds m = false) : (setComposition c).build.after m = m := by
  have heffect := (Model.Operation.setComposition c).effect m
  have hafter : (setComposition c).build.after m = (Model.Operation.setComposition c).after m := rfl
  rw [hafter]
  generalize (Model.Operation.setComposition c).after m = m' at heffect ⊢
  cases heffect with
  | declared hop _ _ => exact hop.elim
  | refused _ => rfl
  | composed hcheck hok =>
    have hsucceeds : (setComposition c).build.succeeds m = true :=
      Model.Effect.succeeds_setComposition hn hcheck hok
    simp [hsucceeds] at h

/-- **Refused requests change nothing**, after any requests before, except that a payload of an
event that was not declared is recorded up to a field that does not fit. -/
theorem after_of_refused {start : component.State} (hstart : component.Distinct start)
    (earlier : List (Request component)) (r : Request component)
    (h : r.RefusedBy (run start earlier)) :
    r.build.succeeds (run start earlier) = false ∧
      (r.build.after (run start earlier) = run start earlier ∨
        r.Leaves (run start earlier) (r.build.after (run start earlier))) := by
  have hdistinct := distinct_run earlier hstart
  generalize run start earlier = s at h hdistinct ⊢
  have hchange {f : component.State → Result component.State} (hr : r.build = .change f)
      (h : r.build.succeeds s = false) : r.build.after s = s := by
    rw [hr] at h ⊢
    rcases Build.after_change f s with ⟨hok, -⟩ | ⟨-, hsame⟩
    · simp [hok] at h
    · exact hsame
  cases r with
  | recordPayload name payload => exact ⟨h, after_recordPayload_of_refused hdistinct h⟩
  | setComposition c => exact ⟨h, .inl (after_setComposition_of_refused hdistinct h)⟩
  | transition c setting record state t =>
    have hways : ¬ ∃ ways, c.ways setting.constants t = .ok ways := by
      rw [Chart.exists_ways_iff]
      rintro ⟨hps, hstates⟩
      rcases h with hnone | ⟨target, htarget, hnone⟩
      · exact hnone hps
      · exact hstates target htarget hnone
    obtain ⟨e, he⟩ := Result.exists_error_iff.2 hways
    have hfails := Chart.fails_addTransition (a := s.2) (r := record) (s := state) he s.1
    exact ⟨hfails.succeeds_eq, .inl hfails.after_eq⟩
  | _ => exact ⟨h, .inl (hchange rfl h)⟩

/-- A payload that a declared event refuses for its second field, and a transition to no state. -/
theorem after_of_refused_of_declared :
    let start : Events := {}
    let earlier : List (Request .events) := [.declare "go" [("a", .int), ("b", .bool)]]
    let payload : Request .events := .recordPayload "go" [("a", .int), ("b", .int)]
    let chart : Chart := { name := "robot", initial := "idle", states := [{ id := "idle" }] }
    let transition : Request .chart :=
      .transition chart { capacity := .whole 1, globals := fun _ => none, constants := [] }
        { id := "idle" } { id := "idle" } { event := some "go", goal := .single "away" none }
    let robot : Events × Automaton := ({}, { name := "robot" })
    (Component.Distinct .events start ∧ payload.RefusedBy (run start earlier) ∧
      payload.build.after (run start earlier) = run start earlier) ∧
    Component.Distinct .chart robot ∧ transition.RefusedBy robot ∧
      transition.build.succeeds robot = false ∧ transition.build.after robot = robot := by
  intro start earlier payload chart transition robot
  have hpayload : payload.build.succeeds (run start earlier) = false := by decide +kernel
  have htransition : transition.RefusedBy robot := .inr ⟨_, List.mem_singleton_self _, rfl⟩
  have hevents : Component.Distinct .events start := List.Pairwise.nil
  have hrobot : Component.Distinct .chart robot := trivial
  obtain ⟨-, hpayload'⟩ := after_of_refused hevents earlier payload hpayload
  obtain ⟨hfails, htransition'⟩ := after_of_refused hrobot [] transition htransition
  refine ⟨⟨hevents, hpayload, hpayload'.resolve_right ?_⟩, hrobot, htransition, hfails,
    htransition'.resolve_right id⟩
  rintro ⟨e, -, -, -, -, -, he, hdeclared, -⟩
  cases he
  cases hdeclared

/-- **A refused payload may leave a field**: an event that was not declared gets the fields before
the one that does not fit. -/
theorem after_of_refused_not_unchanged :
    let start : Events := {}
    let earlier : List (Request .events) := [.recordPayload "go" [("b", .bool)]]
    let payload : Request .events := .recordPayload "go" [("a", .int), ("b", .int)]
    payload.build.succeeds (run start earlier) = false ∧
      payload.build.after (run start earlier) ≠ run start earlier := by
  intro start earlier payload
  have hfields : (payload.build.after (run start earlier) : Events).all.map
    (·.fields.length) = [2] ∧
      (run start earlier : Events).all.map (·.fields.length) = [1] := by decide +kernel
  refine ⟨by decide +kernel, fun hsame => ?_⟩
  rw [hsame, hfields.2] at hfields
  cases hfields.1

end Request

end ChartNet
