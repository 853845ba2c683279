import ChartNet.Proofs.Body.Locations
import ChartNet.Proofs.Fields

/-!
# Declared events

The fields of a **declared** event are fixed, so what is sent with it changes nothing but its
senders. The registry of events is all that charts share while they are compiled, and of it a chart
reads only the **bare** events, without the automata that are registered with them. Hence two
registries of the same bare events cannot be told apart, as long as all events that are sent and
received are declared.
-/

namespace ChartNet

/-! ### Bare events -/

/-- The **bare** event: its name and its fields, without the automata that send and receive it. -/
def Event.bare (e : Event) : Event :=
  { e with senders := [], receivers := [] }

namespace Events

/-- The **bare** events. -/
def bare (es : Events) : Events := ⟨es.all.map (·.bare)⟩

/-- There is a **declared** event of a name. -/
def Declares (es : Events) (event : String) : Prop :=
  ∃ e, es.get? event = some e ∧ e.declared = true

variable {es ds b : Events} {event : String}

@[simp] theorem names_bare (es : Events) : es.bare.names = es.names := by
  simp [names, bare, Event.bare, Function.comp_def]

theorem get?_bare (es : Events) (event : String) :
    es.bare.get? event = (es.get? event).map (·.bare) := by
  rw [get?, bare, List.find?_map]
  rfl

@[simp] theorem declares_bare : es.bare.Declares event ↔ es.Declares event := by
  simp [Declares, get?_bare, Event.bare]

/-- The type of a field of an event is that of the bare event. -/
theorem fieldType?_bare (es : Events) (event field : String) :
    (es.bare.get? event).bind (·.fieldType? field) =
      (es.get? event).bind (·.fieldType? field) := by
  rw [get?_bare, Option.bind_map]
  rfl

/-- What a name means to a chart depends on the bare events only. -/
theorem variableType?_bare (es : Events) (x : String) :
    es.bare.variableType? x = es.variableType? x := by
  rw [variableType?, bare, List.findSome?_map]
  rfl

/-- Nobody is registered with bare events. -/
theorem not_registers_of_bare (h : es.bare = es) {role : Role} {x : String} :
    ¬ es.Registers role event x := by
  rintro ⟨e, he, hx⟩
  rw [← h, get?_bare, Option.map_eq_some_iff] at he
  obtain ⟨e, -, rfl⟩ := he
  cases role <;> simp [Event.bare, Event.members] at hx

/-! ### Changes to registered members -/

/-- An event that is there need not be added. -/
theorem Declares.ensure (h : es.Declares event) : es.ensure event = es := by
  obtain ⟨e, he, -⟩ := h
  simp [Events.ensure, contains, he]

theorem bare_modify {f : Event → Event} (hf : ∀ e, (f e).bare = e.bare) :
    (es.modify event f).bare = es.bare := by
  simp only [bare, modify, List.map_map, Events.mk.injEq]
  refine List.map_congr_left fun e _ => ?_
  by_cases he : e.name = event <;> simp [he, hf]

theorem Declares.bare_addSender (h : es.Declares event) (automaton action : String) :
    (es.addSender event automaton action).bare = es.bare := by
  rw [addSender, h.ensure]
  exact bare_modify fun _ => rfl

theorem Declares.bare_addReceiver (h : es.Declares event) (automaton action : String) :
    (es.addReceiver event automaton action).bare = es.bare := by
  rw [addReceiver, h.ensure]
  exact bare_modify fun _ => rfl

/-- Changing an event to itself changes nothing. -/
theorem modify_self (hn : es.names.Nodup) {e : Event} (he : es.get? event = some e) :
    es.modify event (fun _ => e) = es := by
  have hself : (es.all.map fun e' => if e'.name == event then e else e') = es.all := by
    conv_rhs => rw [← List.map_id es.all]
    refine List.map_congr_left fun e' he' => ?_
    split
    · rename_i hname
      obtain rfl := beq_iff_eq.1 hname
      exact Option.some.inj (he.symm.trans (get?_of_mem hn he'))
    · rfl
  rw [modify, hself]

end Events

/-! ### Sending declared events -/

/-- A declared event takes a value that fits, and stays as it is. -/
theorem Event.recordField_of_declared {e e' : Event} (h : e.declared = true) {field : String}
    {type : DataType} :
    e.recordField field type = .ok e' ↔
      e' = e ∧ ∃ known merged, e.fieldType? field = some known ∧ known.unify type = some merged ∧
        merged.base = known.base := by
  rw [recordField_eq_ok]
  constructor
  · rintro (⟨-, hnot, -⟩ | ⟨known, merged, hknown, hmerged, ⟨-, hbase, rfl⟩ | ⟨hnot, -⟩⟩)
    · simp [h] at hnot
    · exact ⟨rfl, known, merged, hknown, hmerged, hbase⟩
    · simp [h] at hnot
  · rintro ⟨rfl, known, merged, hknown, hmerged, hbase⟩
    exact .inr ⟨known, merged, hknown, hmerged, .inl ⟨h, hbase, rfl⟩⟩

/-- Sending a value with a **declared** event gives the declared type of the field, and registers
nothing. -/
theorem EventM.yields_recordField {es es' : Events} (hn : es.names.Nodup) {event field : String}
    (h : es.Declares event) {type type' : DataType} :
    (recordField event field type).Yields es type' es' ↔
      es' = es ∧ (es.get? event).bind (·.fieldType? field) = some type' ∧
        ∃ merged, type'.unify type = some merged ∧ merged.base = type'.base := by
  obtain ⟨e, he, hdeclared⟩ := id h
  have hpayload : es.recordPayload event [(field, type)] =
      ((e.recordPayload [(field, type)]).1,
        es.modify event fun _ => (e.recordPayload [(field, type)]).2) := by
    simp [Events.recordPayload, h.ensure, he]
  -- the recorded type is looked up after the record, which changes nothing here
  have hrun : (recordField event field type).Yields es type' es' ↔
      ((es.recordPayload event [(field, type)]).1.map fun _ =>
        (((es.recordPayload event [(field, type)]).2.get? event).bind
          (·.fieldType? field)).getD type) = .ok type' ∧
        (es.recordPayload event [(field, type)]).2 = es' := Prod.mk_inj
  rw [hrun, hpayload]
  cases hrecord : e.recordField field type with
  | error err =>
    simp only [Event.recordPayload, hrecord, Except.map, reduceCtorEq, false_and, false_iff]
    rintro ⟨-, hknown, merged, hmerged, hbase⟩
    rw [he, Option.bind_some] at hknown
    have hok :=
      (Event.recordField_of_declared hdeclared).2 ⟨rfl, type', merged, hknown, hmerged, hbase⟩
    rw [hrecord] at hok
    cases hok
  | ok e' =>
    obtain ⟨rfl, known, merged, hknown, hmerged, hbase⟩ :=
      (Event.recordField_of_declared hdeclared).1 hrecord
    simp only [Event.recordPayload, hrecord, Except.map, Events.modify_self hn he, he,
      Option.bind_some, hknown, Option.getD_some, Except.ok.injEq, Option.some.injEq]
    constructor
    · rintro ⟨rfl, rfl⟩
      exact ⟨rfl, rfl, merged, hmerged, hbase⟩
    · rintro ⟨rfl, rfl, -⟩
      exact ⟨rfl, rfl⟩

/-! ### Registries that cannot be told apart -/

/-- Two registries **agree** on an automaton: both have the bare events `b`, and the automaton is
registered in the same roles for the same events. -/
structure Events.Agree (b : Events) (automaton : String) (es ds : Events) : Prop where
  left : es.bare = b
  right : ds.bare = b
  registers : ∀ role event, es.Registers role event automaton ↔ ds.Registers role event automaton

namespace Events.Agree

variable {b es ds : Events} {automaton event : String}

theorem variableType? (h : Agree b automaton es ds) : es.variableType? = ds.variableType? := by
  funext x
  rw [← variableType?_bare, h.left, ← h.right, variableType?_bare]

theorem scope (h : Agree b automaton es ds) (s : BodyScope) : s.scope es = s.scope ds := by
  rw [BodyScope.scope, BodyScope.scope, h.variableType?]

theorem fieldType? (h : Agree b automaton es ds) (event field : String) :
    (es.get? event).bind (·.fieldType? field) = (ds.get? event).bind (·.fieldType? field) := by
  rw [← fieldType?_bare, h.left, ← h.right, fieldType?_bare]

theorem declares_left (h : Agree b automaton es ds) (hb : b.Declares event) : es.Declares event :=
  declares_bare.1 (h.left ▸ hb)

theorem declares_right (h : Agree b automaton es ds) (hb : b.Declares event) : ds.Declares event :=
  declares_bare.1 (h.right ▸ hb)

theorem nodup_left (h : Agree b automaton es ds) (hb : b.names.Nodup) : es.names.Nodup := by
  rwa [← names_bare, h.left]

theorem nodup_right (h : Agree b automaton es ds) (hb : b.names.Nodup) : ds.names.Nodup := by
  rwa [← names_bare, h.right]

theorem addSender (h : Agree b automaton es ds) (hb : b.Declares event) (x action : String) :
    Agree b automaton (es.addSender event x action) (ds.addSender event x action) where
  left := ((h.declares_left hb).bare_addSender x action).trans h.left
  right := ((h.declares_right hb).bare_addSender x action).trans h.right
  registers role event' := by rw [registers_addSender_iff, registers_addSender_iff, h.registers]

theorem addReceiver (h : Agree b automaton es ds) (hb : b.Declares event) (x action : String) :
    Agree b automaton (es.addReceiver event x action) (ds.addReceiver event x action) where
  left := ((h.declares_left hb).bare_addReceiver x action).trans h.left
  right := ((h.declares_right hb).bare_addReceiver x action).trans h.right
  registers role event' := by rw [registers_addReceiver_iff, registers_addReceiver_iff, h.registers]

end Events.Agree

end ChartNet
