import ChartNet.Model.Printer
import ChartNet.Proofs.Build

/-!
# Reading a written model

What stands where in the JSON form of a model. A member of an object is read as a **text** or as a
list of **items**, and a list of named items as the list of their names. Each part of a model is
written with its texts in place, and its lists item by item (`Model.toJson_reads`).
-/

namespace ChartNet

namespace Json

/-- The **text** of a member of an object. -/
def text? (j : Json) (name : String) : Option String :=
  match j.get? name with
  | some (.str s) => some s
  | _ => none

/-- The **items** of a member of an object that is a list. -/
def items? (j : Json) (name : String) : Option (List Json) :=
  match j.get? name with
  | some (.arr items) => some items
  | _ => none

/-- The texts that all items of a list have as the same member. -/
def texts? (j : Json) (list name : String) : Option (List String) :=
  (j.items? list).bind fun items => items.mapM (·.text? name)

/-- A list is read item by item. -/
theorem mapM_eq_some {α β : Type} {read? : α → Option β} {as : List α} {bs : List β} :
    as.mapM read? = some bs ↔ List.Forall₂ (fun a b => read? a = some b) as bs := by
  induction as generalizing bs with
  | nil => simp [eq_comm]
  | cons a as ih =>
    simp only [List.mapM_cons, Option.bind_eq_bind, Option.bind_eq_some_iff, ih, Option.pure_def,
      Option.some.injEq, List.forall₂_cons_left_iff]
    constructor
    · rintro ⟨b, hb, bs, hbs, rfl⟩
      exact ⟨b, bs, hb, hbs, rfl⟩
    · rintro ⟨b, bs, hb, hbs, rfl⟩
      exact ⟨b, hb, bs, hbs, rfl⟩

theorem texts?_eq_some {j : Json} {list name : String} {texts : List String} :
    j.texts? list name = some texts ↔ ∃ items, j.items? list = some items ∧
      List.Forall₂ (fun item text => item.text? name = some text) items texts := by
  simp [texts?, Option.bind_eq_some_iff, mapM_eq_some]

/-- A list of objects that are named by the parts of another list has their names. -/
theorem texts?_of_forall₂ {α : Type} {j : Json} {list name : String} {items : List Json}
    {l : List α} {f : α → String} {R : α → Json → Prop} (h : j.items? list = some items)
    (hl : List.Forall₂ R l items) (hR : ∀ a item, R a item → item.text? name = some (f a)) :
    j.texts? list name = some (l.map f) := by
  refine texts?_eq_some.2 ⟨items, h, List.forall₂_map_right_iff.2 ?_⟩
  exact hl.flip.imp fun item a hRa => hR a item hRa

end Json

variable {constants : Constants} {json : Json}

theorem Variable.text?_toJson {v : Variable} (h : v.toJson constants = .ok json) :
    json.text? "name" = some v.name := by
  obtain ⟨init, -, heq⟩ := Result.bind_eq_ok.1 h
  cases heq
  rfl

/-- A written **destination** has a location. -/
theorem Edge.text?_destinationJson {e : Edge} {d : Destination}
    (h : e.destinationJson constants d = .ok json) :
    ∃ l, d.location = some l ∧ json.text? "location" = some l := by
  simp only [destinationJson, Result.bind_eq_ok] at h
  obtain ⟨l, htarget, probability, -, assignments, -, heq⟩ := h
  cases heq
  unfold targetOf at htarget
  split at htarget
  · rename_i hl
    cases htarget
    exact ⟨l, hl, rfl⟩
  · simp [failModel] at htarget

/-- A written **edge** has its location, its action and its destinations. -/
theorem Edge.toJson_reads {e : Edge} (h : e.toJson constants = .ok json) :
    json.text? "location" = some e.location ∧ json.text? "action" = e.action ∧
      ∃ destinations, json.items? "destinations" = some destinations ∧
        List.Forall₂ (fun d j => e.destinationJson constants d = .ok j) e.destinations
          destinations := by
  simp only [toJson, Result.bind_eq_ok, Result.mapM_eq_ok] at h
  obtain ⟨guard, -, destinations, hdestinations, heq⟩ := h
  cases heq
  refine ⟨rfl, ?_, destinations, ?_, hdestinations⟩
  · cases e.action <;> cases guard <;> rfl
  · cases e.action <;> cases guard <;> rfl

/-- A written **automaton** has its name, its locations in order, its initial location, its edges
and, if there are any, its variables. -/
theorem Automaton.toJson_reads {a : Automaton} (h : a.toJson constants = .ok json) :
    json.text? "name" = some a.name ∧
      json.texts? "locations" "name" = some (Text.sortByUnits a.locations) ∧
      (∃ l, a.initial = some l ∧ json.get? "initial-locations" = some (.arr [.str l])) ∧
      (∃ edges, json.items? "edges" = some edges ∧
        List.Forall₂ (fun e j => e.toJson constants = .ok j) a.edges edges) ∧
      (json.get? "variables" = none ∨
        json.texts? "variables" "name" = some (a.vars.map (·.name))) := by
  simp only [toJson, Result.bind_eq_ok, Result.mapM_eq_ok] at h
  obtain ⟨initial, hinitial, edges, hedges, vars, hvars, heq⟩ := h
  cases heq
  refine ⟨rfl, ?_, ⟨initial, ?_, rfl⟩, ⟨edges, rfl, hedges⟩, ?_⟩
  · refine Json.texts?_eq_some.2 ⟨_, rfl, List.forall₂_map_left_iff.2 ?_⟩
    exact List.forall₂_same.2 fun _ _ => rfl
  · unfold initialLocation at hinitial
    split at hinitial
    · rename_i hl
      cases hinitial
      exact hl
    · simp [failModel] at hinitial
  · rcases vars with _ | ⟨v, vars⟩
    · exact .inl rfl
    · exact .inr (Json.texts?_of_forall₂ rfl hvars fun _ _ => Variable.text?_toJson)

/-- A written **composition** has its elements, and its synchronisations in order, each with its
vector. -/
theorem Composition.toJson_reads (c : Composition) :
    c.toJson.texts? "elements" "automaton" = some c.elements ∧
      ∃ syncs, c.toJson.items? "syncs" = some syncs ∧
        List.Forall₂ (fun s j => j.text? "result" = some s.result ∧
          j.items? "synchronise" =
            some ((c.vector s).map fun action => (action.map Json.str).getD .null))
          c.sortedSyncs syncs := by
  refine ⟨?_, _, rfl, List.forall₂_map_right_iff.2 (List.forall₂_same.2 fun _ _ => ⟨rfl, rfl⟩)⟩
  exact Json.texts?_eq_some.2 ⟨_, rfl,
    List.forall₂_map_left_iff.2 (List.forall₂_same.2 fun _ _ => rfl)⟩

/-- **A written model** has its actions in order, its automata and its composition. -/
theorem Model.toJson_reads {m : Model} (h : m.toJson = .ok json) :
    json.texts? "actions" "name" = some m.actions ∧
      (∃ automata, json.items? "automata" = some automata ∧
        List.Forall₂ (fun a j => a.toJson m.constantValues = .ok j) m.automata automata) ∧
      ∃ c, m.composition = some c ∧ json.get? "system" = some c.toJson := by
  simp only [toJson, Result.bind_eq_ok, Result.mapM_eq_ok] at h
  obtain ⟨c, hc, vars, -, constants, -, automata, hautomata, properties, -, heq⟩ := h
  cases heq
  refine ⟨?_, ⟨automata, rfl, hautomata⟩, c, ?_, rfl⟩
  · refine Json.texts?_eq_some.2 ⟨_, rfl, List.forall₂_map_left_iff.2 ?_⟩
    exact List.forall₂_same.2 fun _ _ => rfl
  · unfold requireComposition at hc
    split at hc
    · rename_i hsome
      cases hc
      exact hsome
    · simp [failModel] at hc

end ChartNet
