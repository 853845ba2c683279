import ChartNet.Proofs.Body.Payloads
import ChartNet.Proofs.Widening

/-!
# Notes of bodies

What a body registers can be listed without compiling it: a send **notes** that there is the event,
then each of its values, then that the automaton sends the event. The type of a value depends on the
events that are registered when the value is noted. A body that is compiled registers exactly its
notes, in their order (`BodyScope.noteAll_of_steps`), and registering notes widens the events.
-/

namespace ChartNet

/-! ### Types of values -/

/-- A value is sent with the form and the base of its type. -/
theorem BodyScope.payloadType_of_plain {s : BodyScope} {es : Events} {source : Source} {e : Expr}
    {given : DataType} (hsource : source.meaning = .plain e)
    (h : s.payloadType es source = .ok given) :
    ∃ t, (e.withEvent s.event).infer (s.scope es).types = .ok (some t) ∧ given.SameForm t ∧
      t.base = given.base := by
  simp only [payloadType, hsource, Result.bind_eq_ok] at h
  obtain ⟨found, hfound, h⟩ := h
  split at h
  · cases h
    exact ⟨_, hfound, ⟨rfl, by simp [DataType.dimensions]⟩, rfl⟩
  · rename_i t hscalar
    cases h
    refine ⟨t, hfound, ?_, rfl⟩
    cases t with
    | array shape => exact absurd rfl (hscalar shape)
    | _ => exact ⟨rfl, rfl⟩
  · cases h

/-! ### Recording a field -/

/-- Recording a field widens the events, and the field admits what is recorded. -/
theorem EventM.widens_recordField {event field : String} {type type' : DataType} {es es' : Events}
    (h : (recordField event field type).Yields es type' es') :
    es.Widens es' ∧ ∃ t, es'.fieldType? event field = some t ∧ t.Admits type := by
  have hok : ((es.recordPayload event [(field, type)]).1.map fun _ =>
      (((es.recordPayload event [(field, type)]).2.get? event).bind
        (·.fieldType? field)).getD type) = .ok type' := congrArg Prod.fst h
  have hstate : (es.recordPayload event [(field, type)]).2 = es' := congrArg Prod.snd h
  obtain ⟨_, hunit, -⟩ := Result.map_eq_ok.1 hok
  exact Events.widens_recordPayload (Prod.ext hunit hstate)

/-- A field that a value was recorded in has the type that is given then, which admits the
value's. -/
theorem EventM.admits_recordField {event field : String} {type type' : DataType} {es es' : Events}
    (h : (recordField event field type).Yields es type' es') :
    es'.fieldType? event field = some type' ∧ type'.Admits type := by
  obtain ⟨-, t, ht, hadmits⟩ := EventM.widens_recordField h
  have hok : ((es.recordPayload event [(field, type)]).1.map fun _ =>
      (((es.recordPayload event [(field, type)]).2.get? event).bind
        (·.fieldType? field)).getD type) = .ok type' := congrArg Prod.fst h
  have hstate : (es.recordPayload event [(field, type)]).2 = es' := congrArg Prod.snd h
  rw [hstate] at hok
  obtain ⟨_, -, hfound⟩ := Result.map_eq_ok.1 hok
  have hfield : (es'.get? event).bind (·.fieldType? field) = some t := ht
  rw [hfield, Option.getD_some] at hfound
  exact hfound ▸ ⟨ht, hadmits⟩

/-! ### Notes -/

/-- A **note** is one thing that a chart registers: that its automaton receives an event by an
action, that there is an event, a value that is sent in it, from a body that reads the data of
another event, and that its automaton sends the event. -/
inductive Note where
  | receive (event action : String)
  | announce (event : String)
  | value (reads : Option String) (event : String) (p : Param)
  | send (event : String)
deriving DecidableEq

namespace BodyScope

/-- The surroundings of a body that reads the data of an event. -/
def reading (s : BodyScope) (event : Option String) : BodyScope :=
  { s with event }

/-- Registers what a note says of an automaton. -/
def note (s : BodyScope) : Note → EventM Unit
  | .receive event action => modify (·.addReceiver event s.automaton action)
  | .announce event => modify (·.ensure event)
  | .value reads event p => do
    let source ← .ofResult (Source.read p.expr)
    let given ← .ofResult ((s.reading reads).payloadType (← get) source)
    let _ ← EventM.recordField event p.name given
  | .send event => modify (·.addSender event s.automaton (sendAction event))

/-- Registers what notes say, one after the other. -/
def noteAll (s : BodyScope) : List Note → EventM Unit
  | [] => return
  | n :: ns => do
    s.note n
    s.noteAll ns

variable {s : BodyScope} {es es' : Events} {u : Unit}

theorem yields_noteAll_nil : (s.noteAll []).Yields es u es' ↔ es' = es := by
  simp [noteAll]

theorem yields_noteAll_cons {n : Note} {ns : List Note} :
    (s.noteAll (n :: ns)).Yields es u es' ↔
      ∃ es₁, (s.note n).Yields es () es₁ ∧ (s.noteAll ns).Yields es₁ () es' := by
  simp only [noteAll, Build.yields_bind]
  constructor
  · rintro ⟨_, es₁, hn, hns⟩
    exact ⟨es₁, hn, hns⟩
  · rintro ⟨es₁, hn, hns⟩
    exact ⟨(), es₁, hn, hns⟩

theorem yields_noteAll_append {ns ns' : List Note} :
    (s.noteAll (ns ++ ns')).Yields es u es' ↔
      ∃ es₁, (s.noteAll ns).Yields es () es₁ ∧ (s.noteAll ns').Yields es₁ () es' := by
  induction ns generalizing es with
  | nil => simp [yields_noteAll_nil]
  | cons n ns ih =>
    simp only [List.cons_append, yields_noteAll_cons, ih]
    constructor
    · rintro ⟨es₁, hn, es₂, hns, hns'⟩
      exact ⟨es₂, ⟨es₁, hn, hns⟩, hns'⟩
    · rintro ⟨es₂, ⟨es₁, hn, hns⟩, hns'⟩
      exact ⟨es₁, hn, es₂, hns, hns'⟩

/-- Notes say themselves whose data they read. -/
theorem note_reading (s : BodyScope) (event : Option String) (n : Note) :
    (s.reading event).note n = s.note n := by
  cases n <;> rfl

theorem noteAll_reading (s : BodyScope) (event : Option String) (ns : List Note) :
    (s.reading event).noteAll ns = s.noteAll ns := by
  induction ns with
  | nil => rfl
  | cons n ns ih => rw [noteAll, noteAll, note_reading, ih]

/-! ### What notes register -/

/-- Noting a value records its field with the type that the value has then. -/
theorem yields_note_value {reads : Option String} {event : String} {p : Param} :
    (s.note (.value reads event p)).Yields es u es' ↔
      ∃ source given type, Source.read p.expr = .ok source ∧
        (s.reading reads).payloadType es source = .ok given ∧
        (EventM.recordField event p.name given).Yields es type es' := by
  simp only [note, Build.yields_bind, Build.yields_ofResult, Build.yields_get, Build.yields_pure]
  constructor
  · rintro ⟨source, _, ⟨hsource, rfl⟩, _, _, ⟨rfl, rfl⟩, given, _, ⟨hgiven, rfl⟩, type, _, hrecord,
      -, rfl⟩
    exact ⟨source, given, type, hsource, hgiven, hrecord⟩
  · rintro ⟨source, given, type, hsource, hgiven, hrecord⟩
    exact ⟨source, _, ⟨hsource, rfl⟩, _, _, ⟨rfl, rfl⟩, given, _, ⟨hgiven, rfl⟩, type, _, hrecord,
      trivial, rfl⟩

/-- Noting widens the events. -/
theorem widens_note {n : Note} (h : (s.note n).Yields es u es') : es.Widens es' := by
  cases n with
  | receive event action => exact Build.yields_modify.1 h ▸ es.widens_addReceiver _ _ _
  | announce event => exact Build.yields_modify.1 h ▸ es.widens_ensure _
  | value reads event p =>
    obtain ⟨source, given, type, -, -, hrecord⟩ := yields_note_value.1 h
    exact (EventM.widens_recordField hrecord).1
  | send event => exact Build.yields_modify.1 h ▸ es.widens_addSender _ _ _

theorem widens_noteAll (ns : List Note) (h : (s.noteAll ns).Yields es u es') : es.Widens es' := by
  induction ns generalizing es with
  | nil => exact yields_noteAll_nil.1 h ▸ .refl es
  | cons n ns ih =>
    obtain ⟨es₁, hn, hns⟩ := yields_noteAll_cons.1 h
    exact (widens_note hn).trans (ih hns)

/-- Who notes that it sends an event is registered for it. -/
theorem registers_of_mem (ns : List Note) {event : String} (hmem : .send event ∈ ns)
    (h : (s.noteAll ns).Yields es u es') : es'.Registers .sender event s.automaton := by
  induction ns generalizing es with
  | nil => simp at hmem
  | cons n ns ih =>
    obtain ⟨es₁, hn, hns⟩ := yields_noteAll_cons.1 h
    rcases List.mem_cons.1 hmem with rfl | hmem
    · obtain rfl := Build.yields_modify.1 hn
      exact (widens_noteAll ns hns).kept (es.registers_addSender _ _ _)
    · exact ih hmem hns

end BodyScope

/-! ### Notes of steps -/

/-- The notes of a send in a body that reads the data of an event. -/
def notesOfSend (reads : Option String) (event : String) (params : List Param) : List Note :=
  .announce event :: params.map (.value reads event) ++ [.send event]

/-- The **notes** of some sends. -/
def notesOf (reads : Option String) (sends : List (String × List Param)) : List Note :=
  sends.flatMap fun p => notesOfSend reads p.1 p.2

/-- Whoever notes a value of an event notes that it sends the event. -/
theorem send_mem_notesOf {reads reads' : Option String} {sends : List (String × List Param)}
    {event : String} {p : Param} (h : .value reads' event p ∈ notesOf reads sends) :
    .send event ∈ notesOf reads sends := by
  obtain ⟨⟨event', params⟩, hsend, hmem⟩ := List.mem_flatMap.1 h
  obtain ⟨_, -, -, rfl⟩ : ∃ q ∈ params, reads = reads' ∧ event' = event := by
    simp only [notesOfSend, List.mem_append, List.mem_cons, List.mem_map] at hmem
    grind
  exact List.mem_flatMap.2 ⟨_, hsend, by simp [notesOfSend]⟩

/-! ### What bodies register -/

namespace BodyScope

variable {s : BodyScope} {es es' : Events}

theorem noteAll_of_sendParam {event : String} {p : Param} {sent : List Assignment}
    (h : (s.sendParam event p).Yields es sent es') :
    (s.note (.value s.event event p)).Yields es () es' := by
  obtain ⟨source, given, type, hsource, hgiven, hrecord, -⟩ := yields_sendParam.1 h
  exact yields_note_value.2 ⟨source, given, type, hsource, hgiven, hrecord⟩

/-- A **send** registers its notes. -/
theorem noteAll_of_send {event : String} {params : List Param} {sent : List Assignment}
    (h : (s.send event params).Yields es sent es') :
    (s.noteAll (notesOfSend s.event event params)).Yields es () es' := by
  have hparams : ∀ (params : List Param) {es es' : Events} {sent : List Assignment},
      (s.sendParams event params).Yields es sent es' →
      (s.noteAll (params.map (.value s.event event))).Yields es () es' := by
    intro params
    induction params with
    | nil =>
      intro es es' sent h
      obtain ⟨-, rfl⟩ := yields_sendParams_nil.1 h
      exact yields_noteAll_nil.2 rfl
    | cons p ps ih =>
      intro es es' sent h
      obtain ⟨_, es₁, _, hp, hps, -⟩ := yields_sendParams_cons.1 h
      exact yields_noteAll_cons.2 ⟨es₁, noteAll_of_sendParam hp, ih hps⟩
  obtain ⟨values, es₁, hvalues, -, rfl⟩ := yields_send.1 h
  refine yields_noteAll_cons.2 ⟨_, Build.yields_modify.2 rfl, ?_⟩
  refine yields_noteAll_append.2 ⟨es₁, hparams params hvalues, ?_⟩
  exact yields_noteAll_cons.2 ⟨_, Build.yields_modify.2 rfl, yields_noteAll_nil.2 rfl⟩

mutual

/-- **Steps register their notes**, in order. -/
theorem noteAll_of_steps : ∀ (steps : List Step) {path : BodyPath} {probability : Expr}
    {assignments : List Assignment} {i : Nat} {es es' : Events} {body : Body},
    (s.steps path probability assignments i steps).Yields es body es' →
      (s.noteAll (notesOf s.event (sendsAmong steps))).Yields es () es'
  | [], _, _, _, _, _, _, _, h => by
    obtain ⟨-, rfl⟩ := yields_steps_nil.1 h
    simp [sendsAmong, notesOf, yields_noteAll_nil]
  | .assign location expr :: rest, _, _, _, _, _, _, _, h => by
    obtain ⟨added, -, hrest⟩ := yields_steps_assign.1 h
    rw [sendsAmong]
    exact noteAll_of_steps rest hrest
  | .send event params :: rest, _, _, _, _, _, _, _, h => by
    obtain ⟨sent, es₁, next, hsent, hrest, -⟩ := yields_steps_send.1 h
    rw [sendsAmong, notesOf, List.flatMap_cons, yields_noteAll_append]
    exact ⟨es₁, noteAll_of_send hsent, noteAll_of_steps rest hrest⟩
  | .choose branches other :: rest, _, _, _, _, _, _, _, h => by
    obtain ⟨conditions, taken, es₁, last, es₂, next, hb, ho, hrest, -⟩ := yields_steps_choose.1 h
    rw [sendsAmong, notesOf, List.flatMap_append, List.flatMap_append, yields_noteAll_append]
    refine ⟨es₂, yields_noteAll_append.2 ⟨es₁, ?_, ?_⟩, noteAll_of_steps rest hrest⟩
    · exact noteAll_of_branches branches hb
    · exact noteAll_of_otherwise other ho

/-- Branches register the notes of their steps. -/
theorem noteAll_of_branches : ∀ (branches : List (String × List Step)) {fork : Fork}
    {es es' : Events} {previous conditions : List Expr} {taken : Fragment},
    (s.branches fork previous branches).Yields es (conditions, taken) es' →
      (s.noteAll (notesOf s.event (sendsAmongBranches branches))).Yields es () es'
  | [], _, _, _, _, _, _, h => by
    obtain ⟨-, rfl⟩ := yields_branches_nil.1 h
    simp [sendsAmongBranches, notesOf, yields_noteAll_nil]
  | (text, steps) :: rest, _, _, _, _, _, _, h => by
    obtain ⟨condition, body, es₁, others, -, hbody, hrest, -⟩ := yields_branches_cons.1 h
    rw [sendsAmongBranches, notesOf, List.flatMap_append, yields_noteAll_append]
    exact ⟨es₁, noteAll_of_steps steps hbody, noteAll_of_branches rest hrest⟩

/-- What is done otherwise registers the notes of its steps. -/
theorem noteAll_of_otherwise : ∀ (other : Option (List Step)) {path : BodyPath}
    {es es' : Events} {body : Body}, (s.otherwise path other).Yields es body es' →
      (s.noteAll (notesOf s.event (sendsAmongOtherwise other))).Yields es () es'
  | none, _, _, _, _, h => by
    obtain ⟨-, rfl⟩ := yields_otherwise_none.1 h
    simp [sendsAmongOtherwise, notesOf, yields_noteAll_nil]
  | some steps, _, _, _, _, h => by
    rw [sendsAmongOtherwise]
    exact noteAll_of_steps steps (yields_otherwise_some.1 h)

end

end BodyScope

end ChartNet
