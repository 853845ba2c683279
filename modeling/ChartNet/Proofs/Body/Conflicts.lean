import ChartNet.Proofs.Body.Payloads
import ChartNet.Proofs.Body.Targets

/-!
# Conflicts in bodies

Two assignments **conflict** if they happen at the same index and have the same target: which of the
values is stored then is left open. Each step of a body assigns at higher indexes than those before
it on the edge, and what one step assigns at one index are different variables. So the only step
that can conflict, and only with itself, is a send, whose values are all written at the same index.

What a send assigns to are the variables of the fields of its values, in their order
(`Events.LaysOut`). Which of these are the same can be told from the event alone, once all that is
sent with it is known.
-/

namespace ChartNet

/-! ### Conflicts -/

/-- Two assignments **conflict** if they happen at the same time and have the same target. -/
def Assignment.Conflicts (a b : Assignment) : Prop :=
  a.index = b.index ∧ a.ref = b.ref

/-- Of some assignments, two **conflict only** in pairs of some kind, in the order in which they
stand. -/
def ConflictsOnly (P : Assignment → Assignment → Prop) (as : List Assignment) : Prop :=
  as.Pairwise fun a b => a.Conflicts b → P a b

/-- The assignments of each destination of an edge conflict only in pairs of some kind. -/
def Edge.ConflictsOnly (P : Assignment → Assignment → Prop) (e : Edge) : Prop :=
  ∀ d ∈ e.destinations, ChartNet.ConflictsOnly P d.assignments

section Conflicts

variable {P Q : Assignment → Assignment → Prop} {as bs : List Assignment}

theorem ConflictsOnly.mono (h : ∀ a b, P a b → Q a b) (has : ConflictsOnly P as) :
    ConflictsOnly Q as :=
  has.imp fun hab hconflict => h _ _ (hab hconflict)

theorem Edge.ConflictsOnly.mono {e : Edge} (h : ∀ a b, P a b → Q a b) (he : e.ConflictsOnly P) :
    e.ConflictsOnly Q :=
  fun d hd => (he d hd).mono h

/-- Assignments at higher indexes conflict with none before them. -/
theorem ConflictsOnly.append (has : ConflictsOnly P as) (hbs : ConflictsOnly P bs)
    (h : ∀ a ∈ as, ∀ b ∈ bs, ¬ b.index.le a.index) : ConflictsOnly P (as ++ bs) := by
  refine List.pairwise_append.2 ⟨has, hbs, fun a ha b hb hconflict => absurd ?_ (h a ha b hb)⟩
  rw [hconflict.1]
  exact Rank.le_refl _

/-- Assignments to different targets do not conflict. -/
theorem conflictsOnly_of_nodup (h : (as.map (·.ref)).Nodup) : ConflictsOnly P as :=
  (List.pairwise_map.1 h).imp fun hne hconflict => absurd hconflict.2 hne

end Conflicts

/-- A variable and its length variables have distinct names. -/
theorem DataType.nodup_names (t : DataType) (x : String) : (t.names x).Nodup := by
  refine List.nodup_cons.2 ⟨fun hmem => ?_, List.nodup_range.map fun i j hij => ?_⟩
  · obtain ⟨i, -, hi⟩ := List.mem_map.1 hmem
    exact lengthName_ne x _ hi
  · exact Nat.succ_injective (lengthName_injective x hij)

/-! ### What a step assigns to -/

theorem Expr.ident_injective : Function.Injective Expr.ident :=
  fun _ _ h => Expr.ident.inj h

namespace Scope

variable {scope : Scope} {as : List Assignment} {r : Rank}

/-- **One step assigns without conflicts.** -/
theorem conflictsOnly_assign {P : Assignment → Assignment → Prop} {location text : String}
    (h : scope.assign location text r = .ok as) : ConflictsOnly P as := by
  cases assigns_of_assign h with
  | scalar => exact List.pairwise_singleton _ _
  | @whole x _ _ _ _ _ _ harray =>
    refine conflictsOnly_of_nodup ?_
    rw [refs_assignArray harray]
    exact (DataType.nodup_names _ x).map Expr.ident_injective
  | @element c shape value =>
    have hlengths : ConflictsOnly P (c.widenLengths r.next) :=
      (c.widenLengths_pairwise r.next).imp fun hne hconflict =>
        absurd (congrArg (fun e : Expr => e.chain?.map (·.root)) hconflict.2) hne
    have helement : ConflictsOnly P [{ ref := c.toExpr, value, index := r }] :=
      List.pairwise_singleton _ _
    -- the element is set at the index before that of the lengths
    refine helement.append hlengths ?_
    intro a ha b hb
    obtain ⟨i, -, rfl⟩ := List.mem_mapIdx.1 hb
    rw [List.mem_singleton.1 ha]
    exact Rank.not_next_le r

end Scope

/-! ### What a send assigns to -/

/-- The names of the variables of a **field** of an event. -/
def Event.fieldNames (e : Event) (field : String) : List String :=
  match e.fieldType? field with
  | some t => t.names (e.name ++ "." ++ field)
  | none => []

/-- The names that a send of some values **assigns to**: the variables of their fields, and that the
event is valid. -/
def Event.sentNames (e : Event) (params : List Param) : List String :=
  params.flatMap (fun p => e.fieldNames p.name) ++ [e.name ++ ".valid"]

/-- Registered events **lay out** a payload: it assigns to what a send of its values assigns to, all
at the lowest index. -/
structure Events.LaysOut (es : Events) (event : String) (params : List Param)
    (payload : List Assignment) : Prop where
  index : ∀ a ∈ payload, a.index = .zero
  refs : ∃ e ∈ es.all, e.name = event ∧ (∀ p ∈ params, (e.fieldType? p.name).isSome) ∧
    payload.map (·.ref) = (e.sentNames params).map .ident

namespace Event

variable {e e' : Event}

theorem fieldNames_of_fieldType? {field : String} {t : DataType} (h : e.fieldType? field = some t) :
    e.fieldNames field = t.names (e.name ++ "." ++ field) := by
  simp [fieldNames, h]

/-- A field keeps its names when the event grows. -/
theorem Grows.fieldNames (h : e.Grows e') {field : String} (hfield : (e.fieldType? field).isSome) :
    (e'.fieldType? field).isSome ∧ e'.fieldNames field = e.fieldNames field := by
  obtain ⟨t, ht⟩ := Option.isSome_iff_exists.1 hfield
  obtain ⟨t', ht', hdimensions⟩ := h.fields ht
  refine ⟨Option.isSome_iff_exists.2 ⟨t', ht'⟩, ?_⟩
  rw [fieldNames_of_fieldType? ht, fieldNames_of_fieldType? ht', h.name,
    DataType.names_congr hdimensions]

end Event

/-- A payload stays laid out when the registered events grow. -/
theorem Events.LaysOut.mono {es es' : Events} {event : String} {params : List Param}
    {payload : List Assignment} (h : es.LaysOut event params payload) (hn : es.names.Nodup)
    (hgrows : es.Grows es') : es'.LaysOut event params payload where
  index := h.index
  refs := by
    obtain ⟨e, he, rfl, hfields, hrefs⟩ := h.refs
    obtain ⟨e', he', hgrown⟩ := hgrows.events hn e he
    have hnames : e'.sentNames params = e.sentNames params := by
      rw [Event.sentNames, Event.sentNames, hgrown.name,
        List.flatMap_congr fun p hp => (hgrown.fieldNames (hfields p hp)).2]
    exact ⟨e', he', hgrown.name, fun p hp => (hgrown.fieldNames (hfields p hp)).1, hnames ▸ hrefs⟩

namespace BodyScope

variable {s : BodyScope} {events events' : Events} {event : String} {sent : List Assignment}

/-- One value is assigned to the variables of its field. -/
private theorem refs_of_sendParam {p : Param}
    (h : (s.sendParam event p).Yields events sent events') :
    events.Grows events' ∧ ∃ e ∈ events'.all, e.name = event ∧ (e.fieldType? p.name).isSome ∧
      sent.map (·.ref) = (e.fieldNames p.name).map .ident := by
  obtain ⟨source, given, type, -, -, hrecord, hassigned⟩ := yields_sendParam.1 h
  obtain ⟨hgrows, e, he, rfl, htype⟩ := EventM.grows_recordField hrecord
  refine ⟨hgrows, e, he, rfl, Option.isSome_iff_exists.2 ⟨type, htype⟩, ?_⟩
  rw [Event.fieldNames_of_fieldType? htype]
  rcases hassigned with ⟨shape, as, rfl, rfl, has⟩ | ⟨hscalar, value, -, rfl⟩
  · rw [← Scope.refs_assignArray has, List.map_map]
    rfl
  · simp [DataType.names, DataType.dimensions_of_not_isArray hscalar]

/-- The values of a send are assigned to the variables of their fields, **one after the other**. -/
private theorem refs_of_sendParams (params : List Param) {events : Events} {sent : List Assignment}
    (hn : events.names.Nodup) (h : (s.sendParams event params).Yields events sent events') :
    events.Grows events' ∧ ∀ e ∈ events'.all, e.name = event →
      (∀ p ∈ params, (e.fieldType? p.name).isSome) ∧
      sent.map (·.ref) = (params.flatMap fun p => e.fieldNames p.name).map .ident := by
  induction params generalizing events sent with
  | nil =>
    obtain ⟨rfl, rfl⟩ := yields_sendParams_nil.1 h
    exact ⟨.refl _, by simp⟩
  | cons p ps ih =>
    obtain ⟨first, events₁, others, hp, hps, rfl⟩ := yields_sendParams_cons.1 h
    obtain ⟨hgrows, e₁, he₁, hname, hfield, hfirst⟩ := refs_of_sendParam hp
    have hn₁ := hgrows.nodup hn
    obtain ⟨hgrows', hothers⟩ := ih hn₁ hps
    refine ⟨hgrows.trans hgrows', fun e he heq => ?_⟩
    obtain ⟨hfields, hrefs⟩ := hothers e he heq
    -- the event of the name is the one in which the first value was recorded, grown since
    obtain ⟨e₂, he₂, hgrown⟩ := hgrows'.events hn₁ e₁ he₁
    obtain rfl : e₂ = e := by
      have hn₂ := hgrows'.nodup hn₁
      have hget := Events.get?_of_mem hn₂ he₂
      rw [hgrown.name, hname, ← heq, Events.get?_of_mem hn₂ he] at hget
      exact (Option.some.inj hget).symm
    obtain ⟨hfield', hnames⟩ := hgrown.fieldNames hfield
    refine ⟨List.forall_mem_cons.2 ⟨hfield', hfields⟩, ?_⟩
    rw [List.map_append, List.flatMap_cons, List.map_append, hfirst, hrefs, hnames]

/-- A **send** makes the registered events grow, and they lay out its payload then. -/
theorem laysOut_of_send {params : List Param} (hn : events.names.Nodup)
    (h : (s.send event params).Yields events sent events') :
    events.Grows events' ∧ events'.LaysOut event params sent := by
  have hindex := (spec_of_send h).1
  obtain ⟨values, events₁, hvalues, rfl, rfl⟩ := yields_send.1 h
  have hensured := events.grows_ensure event
  have hn₀ := hensured.nodup hn
  obtain ⟨hgrows, hrefs⟩ := refs_of_sendParams params hn₀ hvalues
  have hn₁ := hgrows.nodup hn₀
  obtain ⟨e, he⟩ := events.exists_get?_ensure event
  obtain ⟨e₁, he₁, hgrown⟩ := hgrows.events hn₀ e (Events.mem_of_get? he)
  have hname : e₁.name = event := hgrown.name.trans (Events.name_of_get? he)
  obtain ⟨hfields, hnames⟩ := hrefs e₁ he₁ hname
  have hlaid : events₁.LaysOut event params
      (values ++ [{ ref := .ident (event ++ ".valid"), value := .bool true }]) :=
    ⟨hindex, e₁, he₁, hname, hfields, by simp [Event.sentNames, hnames, hname]⟩
  have hsender := events₁.grows_addSender event s.automaton (sendAction event)
  exact ⟨(hensured.trans hgrows).trans hsender, hlaid.mono hn₁ hsender⟩

/-! ### Steps -/

/-- Two assignments on an edge **belong to one send**: the edge is that of a send among some, whose
payload has both, and it is laid out by the events. -/
def Joint (s : BodyScope) (sends : List (String × List Param)) (es : Events) (e : Edge)
    (a b : Assignment) : Prop :=
  ∃ event params payload, e.action = some (sendAction event) ∧ (event, params) ∈ sends ∧
    s.IsPayload event params payload ∧ es.LaysOut event params payload ∧ [a, b].Sublist payload

/-- All edges conflict only within sends. -/
def JointOnly (s : BodyScope) (sends : List (String × List Param)) (es : Events)
    (edges : List Edge) : Prop :=
  ∀ e ∈ edges, e.ConflictsOnly (s.Joint sends es e)

theorem JointOnly.mono {sends sends' : List (String × List Param)} {edges : List Edge}
    (h : s.JointOnly sends events edges) (hsends : sends ⊆ sends') (hn : events.names.Nodup)
    (hgrows : events.Grows events') : s.JointOnly sends' events' edges := by
  refine fun e he => (h e he).mono fun a b => ?_
  rintro ⟨event, params, payload, haction, hmem, hpayload, hlaid, hsub⟩
  exact ⟨event, params, payload, haction, hsends hmem, hpayload, hlaid.mono hn hgrows, hsub⟩

/-- The edge under way **stays without further conflicts**. -/
theorem conflictsOnly_of_steps {P : Assignment → Assignment → Prop} (steps : List Step)
    {path : BodyPath} {probability : Expr} {assignments : List Assignment} {i : Nat} {body : Body}
    (h : (s.steps path probability assignments i steps).Yields events body events')
    (has : ConflictsOnly P assignments) : ConflictsOnly P body.head.assignments := by
  induction steps generalizing assignments i events with
  | nil =>
    obtain ⟨rfl, -⟩ := yields_steps_nil.1 h
    exact has
  | cons step rest ih =>
    cases step with
    | assign location expr =>
      obtain ⟨added, hadded, hrest⟩ := yields_steps_assign.1 h
      exact ih hrest (has.append (Scope.conflictsOnly_assign hadded)
        ((s.scope events).not_le_of_assign hadded))
    | send event params =>
      obtain ⟨sent, events₁, next, -, -, rfl⟩ := yields_steps_send.1 h
      exact has
    | choose branches other =>
      obtain ⟨conditions, taken, events₁, last, events₂, next, -, -, -, rfl⟩ :=
        yields_steps_choose.1 h
      exact has

/-- A body that starts without assignments has no conflict on the edge on which it starts. -/
theorem jointOnly_startingWith {sends : List (String × List Param)} {path : BodyPath} {i : Nat}
    {steps : List Step} {body : Body} {location action : String} {guard : Option Expr}
    (h : (s.steps path (.real 1) [] i steps).Yields events body events')
    (hedges : s.JointOnly sends events' body.edges) :
    s.JointOnly sends events' (body.startingWith location action guard).edges := by
  refine List.forall_mem_cons.2 ⟨List.forall_mem_singleton.2 ?_, hedges⟩
  exact conflictsOnly_of_steps steps h List.Pairwise.nil

mutual

/-- The edges of steps conflict **only within sends**, and the registered events grow. -/
theorem steps_jointOnly : ∀ (steps : List Step) {path : BodyPath} {probability : Expr}
    {assignments : List Assignment} {i : Nat} {events events' : Events} {body : Body},
    events.names.Nodup →
    (s.steps path probability assignments i steps).Yields events body events' →
      events.Grows events' ∧ s.JointOnly (sendsAmong steps) events' body.edges
  | [], _, _, _, _, _, _, _, _, h => by
    obtain ⟨rfl, rfl⟩ := yields_steps_nil.1 h
    exact ⟨.refl _, by simp [JointOnly, Body.finish]⟩
  | .assign location expr :: rest, _, _, _, _, _, _, _, hn, h => by
    obtain ⟨added, -, hrest⟩ := yields_steps_assign.1 h
    rw [sendsAmong]
    exact steps_jointOnly rest hn hrest
  | .send event params :: rest, _, _, _, _, _, _, _, hn, h => by
    obtain ⟨sent, events₁, next, hsent, hrest, rfl⟩ := yields_steps_send.1 h
    obtain ⟨hgrows, hlaid⟩ := laysOut_of_send hn hsent
    have hn₁ := hgrows.nodup hn
    obtain ⟨hgrows', hedges⟩ := steps_jointOnly rest hn₁ hrest
    refine ⟨hgrows.trans hgrows', List.forall_mem_cons.2 ⟨List.forall_mem_singleton.2 ?_, ?_⟩⟩
    · -- what the send assigns is laid out, and what follows comes after it
      refine conflictsOnly_of_steps rest hrest (List.pairwise_iff_forall_sublist.2 fun hsub _ => ?_)
      exact ⟨event, _, sent, rfl, by simp [sendsAmong], ⟨_, _, hsent⟩, hlaid.mono hn₁ hgrows', hsub⟩
    · exact JointOnly.mono hedges (by simp [sendsAmong]) (hgrows'.nodup hn₁) (.refl _)
  | .choose branches other :: rest, _, _, _, _, _, _, _, hn, h => by
    obtain ⟨conditions, taken, events₁, last, events₂, next, hb, ho, hrest, rfl⟩ :=
      yields_steps_choose.1 h
    obtain ⟨hgrows₁, htaken⟩ := branches_jointOnly branches hn hb
    have hn₁ := hgrows₁.nodup hn
    obtain ⟨hgrows₂, hlast⟩ := otherwise_jointOnly other hn₁ ho
    have hn₂ := hgrows₂.nodup hn₁
    obtain ⟨hgrows₃, hnext⟩ := steps_jointOnly rest hn₂ hrest
    refine ⟨hgrows₁.trans (hgrows₂.trans hgrows₃), List.forall_mem_append.2
      ⟨List.forall_mem_append.2 ⟨?_, ?_⟩, ?_⟩⟩
    · exact htaken.mono (by simp [sendsAmong]) hn₁ (hgrows₂.trans hgrows₃)
    · exact hlast.mono (by simp [sendsAmong]) hn₂ hgrows₃
    · exact (jointOnly_startingWith hrest hnext).mono (by simp [sendsAmong]) (hgrows₃.nodup hn₂)
        (.refl _)

/-- The edges of branches conflict only within sends. -/
theorem branches_jointOnly : ∀ (branches : List (String × List Step)) {fork : Fork}
    {events events' : Events} {previous conditions : List Expr} {taken : Fragment},
    events.names.Nodup →
    (s.branches fork previous branches).Yields events (conditions, taken) events' →
      events.Grows events' ∧ s.JointOnly (sendsAmongBranches branches) events' taken.edges
  | [], _, _, _, _, _, _, _, h => by
    obtain ⟨⟨-, rfl⟩, rfl⟩ := yields_branches_nil.1 h
    exact ⟨.refl _, by simp [JointOnly]⟩
  | (text, steps) :: rest, _, _, _, _, _, _, hn, h => by
    obtain ⟨condition, body, events₁, others, -, hbody, hrest, rfl⟩ := yields_branches_cons.1 h
    obtain ⟨hgrows, hown⟩ := steps_jointOnly steps hn hbody
    have hn₁ := hgrows.nodup hn
    obtain ⟨hgrows', hothers⟩ := branches_jointOnly rest hn₁ hrest
    refine ⟨hgrows.trans hgrows', List.forall_mem_append.2 ⟨?_, ?_⟩⟩
    · exact (jointOnly_startingWith hbody hown).mono (by simp [sendsAmongBranches]) hn₁ hgrows'
    · exact hothers.mono (by simp [sendsAmongBranches]) (hgrows'.nodup hn₁) (.refl _)

/-- The edges of what is done otherwise conflict only within sends; it starts without
assignments. -/
theorem otherwise_jointOnly : ∀ (other : Option (List Step)) {path : BodyPath}
    {events events' : Events} {body : Body} {location action : String} {guard : Option Expr},
    events.names.Nodup → (s.otherwise path other).Yields events body events' →
      events.Grows events' ∧ s.JointOnly (sendsAmongOtherwise other) events'
        (body.startingWith location action guard).edges
  | none, _, _, _, _, _, _, _, _, h => by
    obtain ⟨rfl, rfl⟩ := yields_otherwise_none.1 h
    refine ⟨.refl _, List.forall_mem_singleton.2 (List.forall_mem_singleton.2 ?_)⟩
    exact List.Pairwise.nil
  | some steps, _, _, _, _, _, _, _, hn, h => by
    have hsteps := yields_otherwise_some.1 h
    obtain ⟨hgrows, hedges⟩ := steps_jointOnly steps hn hsteps
    rw [sendsAmongOtherwise]
    exact ⟨hgrows, jointOnly_startingWith hsteps hedges⟩

end

end BodyScope

end ChartNet
