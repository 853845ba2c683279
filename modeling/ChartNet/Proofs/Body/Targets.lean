import ChartNet.Proofs.Body.Elements
import ChartNet.Proofs.Body.Locations
import ChartNet.Proofs.Fields

/-!
# Targets of bodies

What the assignments of a body have as their **targets**. An assignment is to a variable, to an
element of one, or to one of the length variables that go with it, and the variable has a type for
the body: it is a variable of the automaton or of the model, or a part of an event that is
registered when the step is compiled. Sends assign to the variables of the event that they send.

Registered events only grow: a field stays, with as many dimensions as it has
(`Events.Grows`). So what is a target of a body still is one when all charts are compiled.
-/

namespace ChartNet

/-! ### Targets -/

/-- The target of an assignment is a variable with some property, or an element of one. -/
def Assignment.Targets (P : String → Prop) (a : Assignment) : Prop :=
  ∃ c, a.ref.chain? = some c ∧ P c.root

/-- All assignments of an edge have **targets** with some property. -/
def Edge.Targets (P : String → Prop) (e : Edge) : Prop :=
  ∀ d ∈ e.destinations, ∀ a ∈ d.assignments, a.Targets P

/-- All assignments of a body have targets with some property. -/
structure Body.Targets (P : String → Prop) (b : Body) : Prop where
  head : ∀ a ∈ b.head.assignments, a.Targets P
  edges : ∀ e ∈ b.edges, e.Targets P

/-- A body on an edge of its own has its targets. -/
theorem Body.Targets.startingWith {P : String → Prop} {b : Body} (h : b.Targets P)
    {location action : String} {guard : Option Expr} :
    ∀ e ∈ (b.startingWith location action guard).edges, e.Targets P := by
  simp only [Body.startingWith, List.forall_mem_cons]
  refine ⟨fun d hd => ?_, h.edges⟩
  rw [List.mem_singleton.1 hd]
  exact h.head

section Mono

variable {P Q : String → Prop} (h : ∀ x, P x → Q x)

include h

theorem Assignment.Targets.mono {a : Assignment} (ha : a.Targets P) : a.Targets Q := by
  obtain ⟨c, hc, hP⟩ := ha
  exact ⟨c, hc, h _ hP⟩

theorem Edge.Targets.mono {e : Edge} (he : e.Targets P) : e.Targets Q :=
  fun d hd a ha => (he d hd a ha).mono h

theorem Body.Targets.mono {b : Body} (hb : b.Targets P) : b.Targets Q :=
  ⟨fun a ha => (hb.head a ha).mono h, fun e he => (hb.edges e he).mono h⟩

end Mono

/-! ### What a step assigns to -/

namespace Scope

variable {scope : Scope} {r : Rank} {as : List Assignment}

/-- A whole array is assigned together with its length variables. -/
theorem targets_assignArray {target : String} {shape : ArrayShape} {source : Source}
    (h : scope.assignArray target shape source r = .ok as) :
    ∀ a ∈ as, a.Targets (· ∈ (DataType.array shape).names target) := by
  intro a ha
  have href : a.ref ∈ as.map (·.ref) := List.mem_map_of_mem ha
  rw [refs_assignArray h] at href
  obtain ⟨x, hx, heq⟩ := List.mem_map.1 href
  exact ⟨⟨x, []⟩, by rw [← heq]; rfl, hx⟩

/-- An assignment to an element widens as many lengths as there are indexes. -/
theorem targets_widenLengths (c : AccessChain) (r : Rank) :
    ∀ a ∈ c.widenLengths r, ∃ i < c.indexes.length,
      a.ref.chain?.map (·.root) = some (lengthName c.root (i + 1)) := by
  intro a ha
  obtain ⟨i, hi, rfl⟩ := List.mem_mapIdx.1 ha
  exact ⟨i, hi, by simp [c.chain?_dimensionLength]⟩

/-- What the text of a target assigns to is a variable with a **type**, or one of its lengths. -/
theorem targets_assign {location text : String} (h : scope.assign location text r = .ok as) :
    ∃ x t, scope.types x = some t ∧ ∀ a ∈ as, a.Targets (· ∈ t.names x) := by
  cases assigns_of_assign h with
  | @scalar x type value _ htype _ _ =>
    refine ⟨x, type, htype, List.forall_mem_singleton.2 ?_⟩
    exact ⟨⟨x, []⟩, rfl, DataType.mem_names.2 (.inl rfl)⟩
  | whole _ htype _ harray => exact ⟨_, _, htype, targets_assignArray harray⟩
  | @element c shape value _ _ htype hdimensions _ =>
    refine ⟨c.root, _, htype, ?_⟩
    rw [List.forall_mem_cons]
    refine ⟨⟨c, c.chain?_toExpr, DataType.mem_names.2 (.inl rfl)⟩, fun a ha => ?_⟩
    obtain ⟨i, hi, hroot⟩ := targets_widenLengths c _ a ha
    obtain ⟨c', hc', heq⟩ := Option.map_eq_some_iff.1 hroot
    exact ⟨c', hc', DataType.mem_names.2 (.inr ⟨i, lt_of_lt_of_eq hi hdimensions.symm, heq⟩)⟩

end Scope

/-! ### What a body assigns to -/

/-- A name is **known** where names have given types and events are registered: it is that of a
typed variable or of one of its lengths, or an event offers it. -/
def Known (types : TypeLookup) (es : Events) (x : String) : Prop :=
  (∃ y t, types y = some t ∧ x ∈ t.names y) ∨ ∃ e ∈ es.all, e.Offers x

/-- What is known stays known when the registered events grow. -/
theorem Known.mono {types : TypeLookup} {es es' : Events} {x : String} (h : Known types es x)
    (hn : es.names.Nodup) (hgrows : es.Grows es') : Known types es' x := by
  rcases h with htyped | ⟨e, he, hoffers⟩
  · exact .inl htyped
  · obtain ⟨e', he', hgrown⟩ := hgrows.events hn e he
    exact .inr ⟨e', he', hgrown.offers hoffers⟩

/-- Recording a field makes the registered events grow, and the field has the type that is given. -/
theorem EventM.grows_recordField {event field : String} {type type' : DataType}
    {events events' : Events} (h : (recordField event field type).Yields events type' events') :
    events.Grows events' ∧ ∃ e ∈ events'.all, e.name = event ∧ e.fieldType? field = some type' := by
  obtain ⟨e, he⟩ := events.exists_get?_ensure event
  have hname := Events.name_of_get? he
  have hpayload : events.recordPayload event [(field, type)] =
      ((e.recordPayload [(field, type)]).1,
        (events.ensure event).modify event fun _ => (e.recordPayload [(field, type)]).2) := by
    simp [Events.recordPayload, he]
  have hresult : ((events.recordPayload event [(field, type)]).1.map fun _ =>
      (((events.recordPayload event [(field, type)]).2.get? event).bind
        (·.fieldType? field)).getD type) = .ok type' := congrArg Prod.fst h
  have hstate : (events.recordPayload event [(field, type)]).2 = events' := congrArg Prod.snd h
  rw [hstate, hpayload] at hresult
  rw [hpayload] at hstate
  cases hrecord : e.recordField field type with
  | error err => simp [Event.recordPayload, hrecord, Except.map] at hresult
  | ok e' =>
    simp only [Event.recordPayload, hrecord] at hresult hstate
    obtain ⟨hgrows, t, ht⟩ := Event.grows_recordField hrecord
    have hname' : e'.name = event := hgrows.name.trans hname
    have hget : events'.get? event = some e' := by
      rw [← hstate, Events.get?_modify _ _ fun _ _ => hname', he]
      simp
    have htype : type' = t := by simpa [hget, ht, Except.map, eq_comm] using hresult
    refine ⟨(events.grows_ensure event).trans ?_, e', Events.mem_of_get? hget, hname', htype ▸ ht⟩
    rw [← hstate]
    refine Events.grows_modify (fun _ _ => hname') fun e₀ he₀ => ?_
    rwa [Option.some.inj (he₀.symm.trans he)]

namespace BodyScope

variable {s : BodyScope} {events events' : Events}

/-- What a step assigns to is known. -/
theorem known_of_assign {location text : String} {r : Rank} {as : List Assignment}
    (h : (s.scope events).assign location text r = .ok as) :
    ∀ a ∈ as, a.Targets (Known s.vars events) := by
  obtain ⟨x, t, htype, htargets⟩ := Scope.targets_assign h
  refine fun a ha => (htargets a ha).mono fun y hy => ?_
  cases hvars : s.vars x with
  | some t' =>
    have heq : t' = t := by simpa [scope, hvars] using htype
    exact .inl ⟨x, t, heq ▸ hvars, hy⟩
  | none =>
    have hevents : events.variableType? x = some t := by simpa [scope, hvars] using htype
    exact .inr (Events.exists_offers_of_variableType? hevents hy)

theorem known_of_sendParam {event : String} {p : Param} {sent : List Assignment}
    (h : (s.sendParam event p).Yields events sent events') :
    events.Grows events' ∧ ∀ a ∈ sent, a.Targets (Known s.vars events') := by
  obtain ⟨source, given, type, -, -, hrecord, hassigned⟩ := yields_sendParam.1 h
  obtain ⟨hgrows, e, he, rfl, htype⟩ := EventM.grows_recordField hrecord
  have hknown : ∀ x ∈ type.names (e.name ++ "." ++ p.name), Known s.vars events' x :=
    fun x hx => .inr ⟨e, he, .inl (.inr ⟨p.name, type, htype, hx⟩)⟩
  refine ⟨hgrows, ?_⟩
  rcases hassigned with ⟨shape, as, rfl, rfl, has⟩ | ⟨-, value, -, rfl⟩
  · refine List.forall_mem_map.2 fun a ha => ?_
    obtain ⟨c, hc, hroot⟩ := Scope.targets_assignArray has a ha
    exact ⟨c, hc, hknown _ hroot⟩
  · rw [List.forall_mem_singleton]
    exact ⟨⟨_, []⟩, rfl, hknown _ (DataType.mem_names.2 (.inl rfl))⟩

theorem known_of_sendParams {event : String} (params : List Param) {events : Events}
    {sent : List Assignment} (hn : events.names.Nodup)
    (h : (s.sendParams event params).Yields events sent events') :
    events.Grows events' ∧ ∀ a ∈ sent, a.Targets (Known s.vars events') := by
  induction params generalizing events sent with
  | nil =>
    obtain ⟨rfl, rfl⟩ := yields_sendParams_nil.1 h
    exact ⟨.refl _, by simp⟩
  | cons p ps ih =>
    obtain ⟨first, events₁, others, hp, hps, rfl⟩ := yields_sendParams_cons.1 h
    obtain ⟨hgrows, hfirst⟩ := known_of_sendParam hp
    obtain ⟨hgrows', hothers⟩ := ih (hgrows.nodup hn) hps
    refine ⟨hgrows.trans hgrows', List.forall_mem_append.2 ⟨fun a ha => ?_, hothers⟩⟩
    exact (hfirst a ha).mono fun x hx => hx.mono (hgrows.nodup hn) hgrows'

/-- A **send** assigns to variables of the event. -/
theorem known_of_send {event : String} {params : List Param} {sent : List Assignment}
    (hn : events.names.Nodup) (h : (s.send event params).Yields events sent events') :
    events.Grows events' ∧ ∀ a ∈ sent, a.Targets (Known s.vars events') := by
  obtain ⟨values, events₁, hvalues, rfl, rfl⟩ := yields_send.1 h
  have hensured := events.grows_ensure event
  obtain ⟨hgrows, hknown⟩ := known_of_sendParams params (hensured.nodup hn) hvalues
  have hsender := events₁.grows_addSender event s.automaton (sendAction event)
  have hn₁ := hgrows.nodup (hensured.nodup hn)
  refine ⟨(hensured.trans hgrows).trans hsender, List.forall_mem_append.2 ⟨fun a ha => ?_, ?_⟩⟩
  · exact (hknown a ha).mono fun x hx => hx.mono hn₁ hsender
  · rw [List.forall_mem_singleton]
    obtain ⟨e, he⟩ := events.exists_get?_ensure event
    obtain ⟨e', he', hgrown⟩ :=
      (hgrows.trans hsender).events (hensured.nodup hn) e (Events.mem_of_get? he)
    refine ⟨⟨_, []⟩, rfl, .inr ⟨e', he', .inl (.inl ?_)⟩⟩
    rw [hgrown.name, Events.name_of_get? he]

/-! ### Steps -/

mutual

/-- What steps assign to is known in the end, if what is already assigned is known. -/
theorem steps_known : ∀ (steps : List Step) {path : BodyPath} {probability : Expr}
    {assignments : List Assignment} {i : Nat} {events events' : Events} {body : Body},
    events.names.Nodup → (∀ a ∈ assignments, a.Targets (Known s.vars events)) →
    (s.steps path probability assignments i steps).Yields events body events' →
      events.Grows events' ∧ body.Targets (Known s.vars events')
  | [], _, _, _, _, _, _, _, _, hassigned, h => by
    obtain ⟨rfl, rfl⟩ := yields_steps_nil.1 h
    exact ⟨.refl _, hassigned, by simp [Body.finish]⟩
  | .assign location expr :: rest, _, _, _, _, _, _, _, hn, hassigned, h => by
    obtain ⟨added, hadded, hrest⟩ := yields_steps_assign.1 h
    exact steps_known rest hn (List.forall_mem_append.2 ⟨hassigned, known_of_assign hadded⟩) hrest
  | .send event params :: rest, _, _, _, _, _, _, _, hn, hassigned, h => by
    obtain ⟨sent, events₁, next, hsent, hrest, rfl⟩ := yields_steps_send.1 h
    obtain ⟨hgrows, hknown⟩ := known_of_send hn hsent
    have hn₁ := hgrows.nodup hn
    obtain ⟨hgrows', hnext⟩ := steps_known rest hn₁ hknown hrest
    refine ⟨hgrows.trans hgrows', fun a ha => ?_, ?_⟩
    · exact (hassigned a ha).mono fun x hx => hx.mono hn (hgrows.trans hgrows')
    · exact hnext.startingWith
  | .choose branches other :: rest, path, _, _, i, _, _, _, hn, hassigned, h => by
    obtain ⟨conditions, taken, events₁, last, events₂, next, hb, ho, hrest, rfl⟩ :=
      yields_steps_choose.1 h
    obtain ⟨hgrows₁, htaken⟩ := branches_known branches hn hb
    have hn₁ := hgrows₁.nodup hn
    obtain ⟨hgrows₂, hlast⟩ := otherwise_known other hn₁ ho
    have hn₂ := hgrows₂.nodup hn₁
    obtain ⟨hgrows₃, hnext⟩ := steps_known rest hn₂ (by simp) hrest
    refine ⟨hgrows₁.trans (hgrows₂.trans hgrows₃), fun a ha => ?_, ?_⟩
    · exact (hassigned a ha).mono fun x hx => hx.mono hn (hgrows₁.trans (hgrows₂.trans hgrows₃))
    · refine List.forall_mem_append.2 ⟨List.forall_mem_append.2 ⟨fun e he => ?_, fun e he => ?_⟩,
        hnext.startingWith⟩
      · exact (htaken e he).mono fun x hx => hx.mono hn₁ (hgrows₂.trans hgrows₃)
      · exact (hlast.startingWith e he).mono fun x hx => hx.mono hn₂ hgrows₃

/-- What branches assign to is known in the end. -/
theorem branches_known : ∀ (branches : List (String × List Step)) {fork : Fork}
    {events events' : Events} {previous conditions : List Expr} {taken : Fragment},
    events.names.Nodup →
    (s.branches fork previous branches).Yields events (conditions, taken) events' →
      events.Grows events' ∧ ∀ e ∈ taken.edges, e.Targets (Known s.vars events')
  | [], _, _, _, _, _, _, _, h => by
    obtain ⟨⟨-, rfl⟩, rfl⟩ := yields_branches_nil.1 h
    exact ⟨.refl _, by simp⟩
  | (text, steps) :: rest, fork, _, _, previous, _, _, hn, h => by
    obtain ⟨condition, body, events₁, others, -, hbody, hrest, rfl⟩ := yields_branches_cons.1 h
    obtain ⟨hgrows₁, hown⟩ := steps_known steps hn (by simp) hbody
    have hn₁ := hgrows₁.nodup hn
    obtain ⟨hgrows₂, hothers⟩ := branches_known rest hn₁ hrest
    refine ⟨hgrows₁.trans hgrows₂, List.forall_mem_append.2 ⟨fun e he => ?_, hothers⟩⟩
    exact (hown.startingWith e he).mono fun x hx => hx.mono hn₁ hgrows₂

/-- What is assigned to otherwise is known in the end. -/
theorem otherwise_known : ∀ (other : Option (List Step)) {path : BodyPath}
    {events events' : Events} {body : Body}, events.names.Nodup →
    (s.otherwise path other).Yields events body events' →
      events.Grows events' ∧ body.Targets (Known s.vars events')
  | none, _, _, _, _, _, h => by
    obtain ⟨rfl, rfl⟩ := yields_otherwise_none.1 h
    exact ⟨.refl _, by simp [Body.finish], by simp [Body.finish]⟩
  | some steps, _, _, _, _, hn, h =>
    steps_known steps hn (by simp) (yields_otherwise_some.1 h)

end

end BodyScope

end ChartNet
