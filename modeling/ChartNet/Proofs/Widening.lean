import ChartNet.Proofs.Fields

/-!
# Fields that are wide enough

A type **admits** another if it stays as wide as it is when it receives values of the other as well.
This is a preorder on types, in which int stands below real, and the type that receives values of
two types admits both (`DataType.admits_of_unify`).

While charts are compiled, registered events only **widen**: who is registered stays, and so does
every field, with a type that admits the one before. So a field admits in the end whatever was once
sent in it.
-/

namespace ChartNet

/-! ### Types that admit others -/

namespace DataType

variable {s t u : DataType}

/-- Two types have the same **form** if both are arrays of as many dimensions, or neither is one. -/
def SameForm (s t : DataType) : Prop :=
  s.isArray = t.isArray ∧ s.dimensions = t.dimensions

/-- A type **admits** another if both unify, and to a type of its own base and dimensions. -/
def Admits (s t : DataType) : Prop :=
  ∃ u, s.unify t = some u ∧ u.base = s.base ∧ u.dimensions = s.dimensions

/-- A type admits those of its form that have its base, and real admits int. -/
theorem admits_iff :
    s.Admits t ↔ s.SameForm t ∧ (t.base = s.base ∨ s.base = .real ∧ t.base = .int) := by
  rcases s with (_ | _ | _) | ⟨_ | _, _, _⟩ | ⟨_ | _, _⟩ <;>
  rcases t with (_ | _ | _) | ⟨_ | _, _, _⟩ | ⟨_ | _, _⟩ <;>
  simp [Admits, SameForm, unify, isArray, dimensions, base, real, NumKind.toScalar]

/-- Types that unify have the same form; they have the same base, or they are numbers and become
real. -/
theorem unify_eq_some (h : s.unify t = some u) : s.SameForm t ∧ u.SameForm s ∧
    (t.base = s.base ∧ u.base = s.base ∨ s.base ≠ .bool ∧ t.base ≠ .bool ∧ u.base = .real) := by
  rcases s with (_ | _ | _) | ⟨_ | _, _, _⟩ | ⟨_ | _, _⟩ <;>
  rcases t with (_ | _ | _) | ⟨_ | _, _, _⟩ | ⟨_ | _, _⟩ <;>
  simp [unify, base, real, NumKind.toScalar] at h <;>
  simp [← h, SameForm, isArray, dimensions, base, NumKind.toScalar]

@[refl] theorem Admits.refl (t : DataType) : t.Admits t :=
  admits_iff.2 ⟨⟨rfl, rfl⟩, .inl rfl⟩

theorem Admits.trans (h : s.Admits t) (h' : t.Admits u) : s.Admits u := by
  obtain ⟨hform, hbase⟩ := admits_iff.1 h
  obtain ⟨hform', hbase'⟩ := admits_iff.1 h'
  refine admits_iff.2 ⟨⟨hform.1.trans hform'.1, hform.2.trans hform'.2⟩, ?_⟩
  rcases hbase' with heq | ⟨hreal, hint⟩
  · rwa [heq]
  · rcases hbase with heq | ⟨-, hint'⟩
    · exact .inr ⟨heq.symm.trans hreal, hint⟩
    · simp [hreal] at hint'

/-- A type admits others by their form and base only. -/
theorem Admits.congr (h : s.Admits t) (hform : t.SameForm u)
    (hbase : u.base = t.base) : s.Admits u := by
  obtain ⟨hform', hbase'⟩ := admits_iff.1 h
  exact admits_iff.2 ⟨⟨hform'.1.trans hform.1, hform'.2.trans hform.2⟩, hbase ▸ hbase'⟩

/-- **What receives values of two types admits both.** -/
theorem admits_of_unify (h : s.unify t = some u) : u.Admits s ∧ u.Admits t := by
  obtain ⟨hform, hform', hbase⟩ := unify_eq_some h
  have hu : u.SameForm t := ⟨hform'.1.trans hform.1, hform'.2.trans hform.2⟩
  rw [admits_iff, admits_iff]
  rcases hbase with ⟨ht, hu'⟩ | ⟨hs, ht, hu'⟩
  · exact ⟨⟨hform', .inl hu'.symm⟩, hu, .inl (ht.trans hu'.symm)⟩
  · -- a number is int or real
    have hnumber : ∀ b : Scalar, b ≠ .bool → b = u.base ∨ u.base = .real ∧ b = .int := by
      intro b hb
      cases b <;> simp_all
    exact ⟨⟨hform', hnumber _ hs⟩, hu, hnumber _ ht⟩

end DataType

/-! ### Events that widen -/

/-- An event **widens**: each field stays, with a type that admits the one before. -/
def Event.Widens (e e' : Event) : Prop :=
  ∀ {field t}, e.fieldType? field = some t → ∃ t', e'.fieldType? field = some t' ∧ t'.Admits t

namespace Event

variable {e e' : Event}

theorem widens_of_fields (h : e'.fields = e.fields) : e.Widens e' :=
  fun hfield => ⟨_, by rw [fieldType?, h]; exact hfield, .refl _⟩

/-- A field admits what is recorded in it, and widens to that. -/
theorem widens_recordField {field : String} {type : DataType}
    (h : e.recordField field type = .ok e') :
    e.Widens e' ∧ ∃ t, e'.fieldType? field = some t ∧ t.Admits type := by
  have hput : ∀ t : DataType, (∀ known, e.fieldType? field = some known → t.Admits known) →
      t.Admits type → e.Widens { e with fields := assocPut e.fields field t } ∧
        ∃ t', ({ e with fields := assocPut e.fields field t } : Event).fieldType? field = some t' ∧
          t'.Admits type := by
    intro t hknown htype
    refine ⟨fun {other s} hother => ?_, t, assocGet?_assocPut_self _ _ _, htype⟩
    by_cases heq : other = field
    · subst heq
      exact ⟨t, assocGet?_assocPut_self _ _ _, hknown s hother⟩
    · exact ⟨s, (assocGet?_assocPut_of_ne _ _ heq).trans hother, .refl s⟩
  obtain ⟨hnone, -, rfl⟩ | ⟨known, merged, hknown, hmerged, ⟨-, hbase, rfl⟩ | ⟨-, rfl⟩⟩ :=
    recordField_eq_ok.1 h
  · exact hput type (by simp [hnone]) (.refl type)
  · exact ⟨widens_of_fields rfl, known, hknown, merged, hmerged, hbase,
      DataType.dimensions_unify hmerged⟩
  · obtain ⟨hadmits, hadmits'⟩ := DataType.admits_of_unify hmerged
    refine hput merged (fun known' hknown' => ?_) hadmits'
    rwa [← Option.some.inj (hknown.symm.trans hknown')]

end Event

namespace Events

/-- The type of a field of an event. -/
def fieldType? (es : Events) (event field : String) : Option DataType :=
  (es.get? event).bind (·.fieldType? field)

theorem fieldType?_eq_some {es : Events} {event field : String} {t : DataType} :
    es.fieldType? event field = some t ↔
      ∃ e, es.get? event = some e ∧ e.fieldType? field = some t :=
  Option.bind_eq_some_iff

/-- Registered events **widen**: who is registered stays, and so does each field, with a type that
admits the one before. -/
structure Widens (es es' : Events) : Prop where
  kept : ∀ {role event x}, es.Registers role event x → es'.Registers role event x
  fields : ∀ {event field t}, es.fieldType? event field = some t →
    ∃ t', es'.fieldType? event field = some t' ∧ t'.Admits t

variable {es es' es'' : Events}

@[refl] theorem Widens.refl (es : Events) : es.Widens es :=
  ⟨id, fun h => ⟨_, h, .refl _⟩⟩

theorem Widens.trans (h : es.Widens es') (h' : es'.Widens es'') : es.Widens es'' := by
  refine ⟨fun hr => h'.kept (h.kept hr), fun hfield => ?_⟩
  obtain ⟨t', hfield', hadmits⟩ := h.fields hfield
  obtain ⟨t'', hfield'', hadmits'⟩ := h'.fields hfield'
  exact ⟨t'', hfield'', hadmits'.trans hadmits⟩

/-- Events widen if they extend others and each of them widens. -/
theorem Widens.of_events {automaton : String} (hext : es.Extends automaton es')
    (h : ∀ {event e}, es.get? event = some e → ∃ e', es'.get? event = some e' ∧ e.Widens e') :
    es.Widens es' := by
  refine ⟨hext.kept, fun hfield => ?_⟩
  obtain ⟨e, he, hfield⟩ := fieldType?_eq_some.1 hfield
  obtain ⟨e', he', hwidens⟩ := h he
  obtain ⟨t', hfield', hadmits⟩ := hwidens hfield
  exact ⟨t', fieldType?_eq_some.2 ⟨e', he', hfield'⟩, hadmits⟩

theorem widens_ensure (es : Events) (name : String) : es.Widens (es.ensure name) :=
  .of_events (extends_ensure name es name) fun {event e} he =>
    ⟨e, by simp [get?_ensure, he], Event.widens_of_fields rfl⟩

/-- The events widen if the one of a name is added if it is new, and changed to one that has
widened. -/
theorem widens_modify {automaton name : String} {f : Event → Event}
    (hext : es.Extends automaton ((es.ensure name).modify name f))
    (hname : ∀ e, e.name = name → (f e).name = name)
    (hf : ∀ e, (es.ensure name).get? name = some e → e.Widens (f e)) :
    es.Widens ((es.ensure name).modify name f) := by
  refine .of_events hext fun {event e} he => ?_
  have hensured : (es.ensure name).get? event = some e := by simp [get?_ensure, he]
  refine ⟨if event = name then f e else e, by simp [get?_modify _ _ hname, hensured], ?_⟩
  split
  · rename_i heq
    exact hf e (heq ▸ hensured)
  · exact Event.widens_of_fields rfl

theorem widens_addSender (es : Events) (name automaton action : String) :
    es.Widens (es.addSender name automaton action) :=
  widens_modify (extends_addSender es name automaton action) (fun _ h => h)
    fun _ _ => Event.widens_of_fields rfl

theorem widens_addReceiver (es : Events) (name automaton action : String) :
    es.Widens (es.addReceiver name automaton action) :=
  widens_modify (extends_addReceiver es name automaton action) (fun _ h => h)
    fun _ _ => Event.widens_of_fields rfl

/-- Recording what is sent in a field widens the events, and the field admits it then. -/
theorem widens_recordPayload {name field : String} {type : DataType}
    (h : es.recordPayload name [(field, type)] = (.ok (), es')) :
    es.Widens es' ∧ ∃ t, es'.fieldType? name field = some t ∧ t.Admits type := by
  obtain ⟨e, he⟩ := es.exists_get?_ensure name
  have hext := extends_recordPayload name es name [(field, type)]
  rw [h] at hext
  simp only [recordPayload, he, Event.recordPayload, Prod.mk.injEq] at h
  cases hrecord : e.recordField field type with
  | error err => simp [hrecord] at h
  | ok e' =>
    rw [hrecord] at h
    obtain ⟨-, rfl⟩ := h
    obtain ⟨hwidens, t, ht, hadmits⟩ := Event.widens_recordField hrecord
    have hname : e'.name = name :=
      (Event.grows_recordField hrecord).1.name.trans (name_of_get? he)
    refine ⟨widens_modify hext (fun _ _ => hname) fun e₀ he₀ => ?_, t, ?_, hadmits⟩
    · rwa [Option.some.inj (he₀.symm.trans he)]
    · exact fieldType?_eq_some.2 ⟨e', by simp [get?_modify _ _ fun _ _ => hname, he], ht⟩

end Events

end ChartNet
