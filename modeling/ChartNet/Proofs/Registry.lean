import Mathlib
import ChartNet.Event
import ChartNet.Proofs.Names

/-!
# The registry of events

While charts are compiled, events collect the automata that send and receive them. A registry only
grows, and while the chart of one automaton is compiled only this automaton is added:
`Events.Extends automaton es es'` says both, and it composes. What was registered stays registered
whatever is compiled afterwards.
-/

namespace ChartNet

/-- The two **roles** that an automaton can have for an event. -/
inductive Role where
  | sender
  | receiver
deriving DecidableEq

/-- The automata in a role for an event, with their actions. -/
def Event.members (e : Event) : Role → List (String × String)
  | .sender => e.senders
  | .receiver => e.receivers

/-- The action by which an event is handled in a role. -/
def Role.action (event : String) : Role → String
  | .sender => sendAction event
  | .receiver => receiveAction event

/-- All that sending a value in a field does to an event: a declared one stays as it is, another one
gets the field or widens it. -/
theorem Event.recordField_eq_ok {e e' : Event} {field : String} {type : DataType} :
    e.recordField field type = .ok e' ↔
      (e.fieldType? field = none ∧ e.declared = false ∧
        e' = { e with fields := assocPut e.fields field type }) ∨
      ∃ known merged, e.fieldType? field = some known ∧ known.unify type = some merged ∧
        (e.declared = true ∧ merged.base = known.base ∧ e' = e ∨
          e.declared = false ∧ e' = { e with fields := assocPut e.fields field merged }) := by
  unfold recordField
  cases hfield : e.fieldType? field with
  | none => cases hdeclared : e.declared <;> simp [failModel, eq_comm]
  | some known =>
    dsimp only
    cases hmerged : known.unify type with
    | none => simp [failType, hmerged]
    | some merged =>
      cases hdeclared : e.declared with
      | false => simp [hmerged, eq_comm]
      | true =>
        by_cases hbase : merged.base = known.base
        · simp [hmerged, hbase, eq_comm]
        · simp [hmerged, hbase, failType]

namespace Events

/-- An automaton is **registered** in a role for an event. -/
def Registers (es : Events) (role : Role) (event automaton : String) : Prop :=
  ∃ e, es.get? event = some e ∧ automaton ∈ (e.members role).map (·.1)

/-- The names of events. -/
def names (es : Events) : List String :=
  es.all.map (·.name)

/-- Events **extend** others by an automaton: registrations stay, only the automaton was added, and
names stay distinct. -/
structure Extends (automaton : String) (es es' : Events) : Prop where
  kept : ∀ {role event x}, es.Registers role event x → es'.Registers role event x
  added : ∀ {role event x}, es'.Registers role event x → es.Registers role event x ∨ x = automaton
  nodup : es.names.Nodup → es'.names.Nodup

namespace Extends

variable {automaton : String} {es es₁ es₂ : Events}

@[refl] theorem refl (automaton : String) (es : Events) : Extends automaton es es where
  kept := id
  added := .inl
  nodup := id

theorem trans (h : Extends automaton es es₁) (h' : Extends automaton es₁ es₂) :
    Extends automaton es es₂ where
  kept hr := h'.kept (h.kept hr)
  added hr := (h'.added hr).elim h.added .inr
  nodup hn := h'.nodup (h.nodup hn)

end Extends

/-! ### Finding events -/

theorem name_of_get? {es : Events} {name : String} {e : Event} (h : es.get? name = some e) :
    e.name = name := by
  simpa using List.find?_some h

theorem mem_of_get? {es : Events} {name : String} {e : Event} (h : es.get? name = some e) :
    e ∈ es.all :=
  List.mem_of_find?_eq_some h

/-- In a registry with distinct names every event is the one of its name. -/
theorem get?_of_mem {es : Events} (hn : es.names.Nodup) {e : Event} (he : e ∈ es.all) :
    es.get? e.name = some e := by
  obtain ⟨all⟩ := es
  simp only [names, get?] at *
  induction all with
  | nil => simp at he
  | cons f fs ih =>
    simp only [List.map_cons, List.nodup_cons, List.mem_map, not_exists, not_and] at hn
    rcases List.mem_cons.1 he with rfl | he
    · simp
    · have hne : f.name ≠ e.name := fun h => hn.1 e he h.symm
      simp [hne, ih hn.2 he]

theorem get?_eq_none {es : Events} {name : String} : es.get? name = none ↔ name ∉ es.names := by
  simp [get?, names]

/-- Names stay distinct when a new event is added. -/
theorem nodup_names_snoc {es : Events} {e : Event} (hnew : es.get? e.name = none)
    (hn : es.names.Nodup) : (Events.mk (es.all ++ [e])).names.Nodup := by
  rw [get?_eq_none] at hnew
  simp only [names, List.map_append, List.map_cons, List.map_nil] at hn hnew ⊢
  simpa using hn.concat hnew

/-- A declared event is added at the end if its name is new. -/
theorem declare_eq_ok {es es' : Events} {name : String} {fields : List (String × DataType)} :
    es.declare name fields = .ok es' ↔
      es.get? name = none ∧ es' = ⟨es.all ++ [Event.declare name fields]⟩ := by
  unfold declare contains
  cases es.get? name <;> simp [failModel, eq_comm]

/-- Events are added only if they are new. -/
theorem get?_ensure (es : Events) (name other : String) :
    (es.ensure name).get? other =
      if es.get? other = none ∧ other = name then some { name := name } else es.get? other := by
  unfold ensure contains
  by_cases hname : (es.get? name).isSome
  · rw [if_pos hname, if_neg]
    rintro ⟨hnone, rfl⟩
    simp [hnone] at hname
  · have hnone : es.get? name = none := by simpa using hname
    rw [if_neg hname]
    unfold get? at hnone ⊢
    rw [List.find?_append]
    by_cases hother : other = name
    · subst hother
      simp [hnone]
    · cases hf : es.all.find? (·.name == other) with
      | none => simp [hother, Ne.symm hother]
      | some e => simp

/-- Changing the event of a name changes no other. -/
theorem get?_modify (es : Events) (name : String) {f : Event → Event}
    (hf : ∀ e, e.name = name → (f e).name = name) (other : String) :
    (es.modify name f).get? other =
      (es.get? other).map fun e => if other = name then f e else e := by
  unfold get? modify
  have hkey : ((fun e : Event => e.name == other) ∘ fun e => if e.name == name then f e else e) =
      fun e => e.name == other := by
    funext e
    by_cases he : e.name = name
    · simp [he, hf e he]
    · simp [he]
  rw [List.find?_map, hkey]
  cases h : es.all.find? (·.name == other) with
  | none => rfl
  | some e =>
    obtain rfl : e.name = other := by simpa using List.find?_some h
    simp

@[simp] theorem names_modify (es : Events) (name : String) {f : Event → Event}
    (hf : ∀ e, e.name = name → (f e).name = name) : (es.modify name f).names = es.names := by
  simp only [names, modify, List.map_map]
  refine List.map_congr_left fun e _ => ?_
  by_cases he : e.name = name
  · simp [he, hf e he]
  · simp [he]

/-! ### Extending -/

theorem extends_ensure (automaton : String) (es : Events) (name : String) :
    Extends automaton es (es.ensure name) where
  kept := by
    rintro role event x ⟨e, he, hx⟩
    exact ⟨e, by simp [get?_ensure, he], hx⟩
  added := by
    rintro role event x ⟨e, he, hx⟩
    rw [get?_ensure] at he
    split at he
    · obtain rfl := Option.some.inj he
      cases role <;> simp [Event.members] at hx
    · exact .inl ⟨e, he, hx⟩
  nodup hn := by
    unfold ensure contains
    split
    · exact hn
    · rename_i h
      exact nodup_names_snoc (by simpa using h) hn

/-- A change extends the registry if it keeps names and members and adds only the automaton. -/
theorem extends_modify {automaton name : String} {f : Event → Event} (es : Events)
    (hname : ∀ e, e.name = name → (f e).name = name)
    (hkept : ∀ e, es.get? name = some e → ∀ role, ∀ x ∈ (e.members role).map (·.1),
      x ∈ ((f e).members role).map (·.1))
    (hadded : ∀ e, es.get? name = some e → ∀ role, ∀ x ∈ ((f e).members role).map (·.1),
      x ∈ (e.members role).map (·.1) ∨ x = automaton) :
    Extends automaton es (es.modify name f) where
  kept := by
    rintro role event x ⟨e, he, hx⟩
    refine ⟨if event = name then f e else e, by simp [get?_modify es name hname, he], ?_⟩
    split
    · rename_i h
      exact hkept e (h ▸ he) role x hx
    · exact hx
  added := by
    rintro role event x ⟨e, he, hx⟩
    rw [get?_modify es name hname, Option.map_eq_some_iff] at he
    obtain ⟨e, he, rfl⟩ := he
    split at hx
    · rename_i h
      exact (hadded e (h ▸ he) role x hx).imp (fun hx => ⟨e, he, hx⟩) id
    · exact .inl ⟨e, he, hx⟩
  nodup hn := by rwa [names_modify es name hname]

/-- The names that stand in a list after one was set. -/
private theorem mem_map_assocPut {α : Type} {pairs : List (String × α)} {name x : String}
    {value : α} :
    x ∈ (assocPut pairs name value).map (·.1) ↔ x ∈ pairs.map (·.1) ∨ x = name := by
  unfold assocPut
  split
  · rename_i h
    obtain ⟨p, hp, hname⟩ := List.any_eq_true.1 h
    have hmap : (pairs.map fun p => if p.1 == name then (name, value) else p).map (·.1) =
        pairs.map (·.1) := by
      rw [List.map_map]
      refine List.map_congr_left fun q _ => ?_
      by_cases hq : q.1 = name <;> simp [hq]
    rw [hmap]
    refine ⟨.inl, ?_⟩
    rintro (hx | rfl)
    · exact hx
    · exact List.mem_map.2 ⟨p, hp, by simpa using hname⟩
  · simp

/-- The event with an automaton in a role. -/
private def addMember (role : Role) (automaton action : String) (e : Event) : Event :=
  match role with
  | .sender => e.addSender automaton action
  | .receiver => e.addReceiver automaton action

private theorem extends_addMember (es : Events) (role : Role) (name automaton action : String) :
    Extends automaton es ((es.ensure name).modify name (addMember role automaton action)) := by
  refine (extends_ensure automaton es name).trans (extends_modify _ ?_ ?_ ?_)
  · intro e he
    cases role <;> exact he
  · intro e he role' x hx
    cases role <;> cases role' <;>
      simp_all [addMember, Event.addSender, Event.addReceiver, Event.members, mem_map_assocPut]
  · intro e he role' x hx
    cases role <;> cases role' <;>
      simp_all [addMember, Event.addSender, Event.addReceiver, Event.members, mem_map_assocPut]

private theorem registers_addMember (es : Events) (role : Role) (name automaton action : String) :
    Registers ((es.ensure name).modify name (addMember role automaton action)) role name
      automaton := by
  have hget : ∃ e, (es.ensure name).get? name = some e := by
    rw [get?_ensure]
    cases es.get? name <;> simp
  obtain ⟨e, he⟩ := hget
  refine ⟨addMember role automaton action e, ?_, ?_⟩
  · rw [get?_modify _ _ (by cases role <;> exact fun _ h => h), he]
    simp
  · cases role <;>
      simp [addMember, Event.addSender, Event.addReceiver, Event.members, mem_map_assocPut]

/-- Adding a member registers it, and nobody else. -/
private theorem registers_addMember_iff {es : Events} (role : Role) {role' : Role}
    {name automaton action event x : String} :
    Registers ((es.ensure name).modify name (addMember role automaton action)) role' event x ↔
      es.Registers role' event x ∨ role' = role ∧ event = name ∧ x = automaton := by
  constructor
  · rintro ⟨e, he, hx⟩
    rw [get?_modify _ _ (by cases role <;> exact fun _ h => h), Option.map_eq_some_iff] at he
    obtain ⟨e, he, rfl⟩ := he
    have hold : x ∈ (e.members role').map (·.1) → es.Registers role' event x := fun hx => by
      rw [get?_ensure] at he
      split at he
      · obtain rfl := Option.some.inj he
        cases role' <;> simp [Event.members] at hx
      · exact ⟨e, he, hx⟩
    split at hx
    · rename_i hname
      cases role <;> cases role' <;>
        simp only [addMember, Event.addSender, Event.addReceiver, Event.members,
          mem_map_assocPut] at hx hold <;>
        first
        | exact hx.imp hold fun hx => ⟨rfl, hname, hx⟩
        | exact .inl (hold hx)
    · exact .inl (hold hx)
  · rintro (h | ⟨rfl, rfl, rfl⟩)
    · exact (extends_addMember es role name automaton action).kept h
    · exact registers_addMember es role' event x action

theorem extends_addSender (es : Events) (name automaton action : String) :
    Extends automaton es (es.addSender name automaton action) :=
  extends_addMember es .sender name automaton action

theorem extends_addReceiver (es : Events) (name automaton action : String) :
    Extends automaton es (es.addReceiver name automaton action) :=
  extends_addMember es .receiver name automaton action

/-- A sender that was added is registered. -/
theorem registers_addSender (es : Events) (name automaton action : String) :
    (es.addSender name automaton action).Registers .sender name automaton :=
  registers_addMember es .sender name automaton action

/-- A receiver that was added is registered. -/
theorem registers_addReceiver (es : Events) (name automaton action : String) :
    (es.addReceiver name automaton action).Registers .receiver name automaton :=
  registers_addMember es .receiver name automaton action

theorem registers_addSender_iff {es : Events} {role : Role}
    {name automaton action event x : String} :
    (es.addSender name automaton action).Registers role event x ↔
      es.Registers role event x ∨ role = .sender ∧ event = name ∧ x = automaton :=
  registers_addMember_iff .sender

theorem registers_addReceiver_iff {es : Events} {role : Role}
    {name automaton action event x : String} :
    (es.addReceiver name automaton action).Registers role event x ↔
      es.Registers role event x ∨ role = .receiver ∧ event = name ∧ x = automaton :=
  registers_addMember_iff .receiver

/-- Recording what is sent with an event touches neither its name nor its members. -/
theorem members_recordPayload (e : Event) (payload : List (String × DataType)) :
    (e.recordPayload payload).2.name = e.name ∧
      ∀ role, (e.recordPayload payload).2.members role = e.members role := by
  have hfield : ∀ {e e' : Event} {field : String} {type : DataType},
      e.recordField field type = .ok e' →
        e'.name = e.name ∧ ∀ role, e'.members role = e.members role := by
    intro e e' field type h
    obtain ⟨-, -, rfl⟩ | ⟨-, -, -, -, ⟨-, -, rfl⟩ | ⟨-, rfl⟩⟩ := Event.recordField_eq_ok.1 h <;>
      exact ⟨rfl, fun role => by cases role <;> rfl⟩
  induction payload generalizing e with
  | nil => exact ⟨rfl, fun _ => rfl⟩
  | cons p ps ih =>
    rw [Event.recordPayload]
    cases h : e.recordField p.1 p.2 with
    | error err => exact ⟨rfl, fun _ => rfl⟩
    | ok e' =>
      obtain ⟨hname, hmembers⟩ := hfield h
      obtain ⟨hname', hmembers'⟩ := ih e'
      exact ⟨hname'.trans hname, fun role => (hmembers' role).trans (hmembers role)⟩

theorem extends_recordPayload (automaton : String) (es : Events) (name : String)
    (payload : List (String × DataType)) :
    Extends automaton es (es.recordPayload name payload).2 := by
  refine (extends_ensure automaton es name).trans ?_
  simp only [recordPayload]
  cases h : (es.ensure name).get? name with
  | none => exact .refl _ _
  | some e =>
    obtain ⟨hname, hmembers⟩ := members_recordPayload e payload
    have hsame : ∀ e', (es.ensure name).get? name = some e' → e' = e := fun e' he' => by
      rw [h] at he'
      exact (Option.some.inj he').symm
    refine extends_modify _ (fun _ _ => hname.trans (name_of_get? h)) ?_ ?_
    · intro e' he' role x hx
      rw [hsame e' he'] at hx
      rwa [hmembers]
    · intro e' he' role x hx
      rw [hmembers] at hx
      rw [hsame e' he']
      exact .inl hx

end Events

end ChartNet
