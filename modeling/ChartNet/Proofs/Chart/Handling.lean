import Mathlib
import ChartNet.Proofs.Chart.Transitions
import ChartNet.Proofs.Interpretation

/-!
# Handling events

Which edges receive an event in a state of a compiled chart (`Chart.compile_receiving`), and which
of them are enabled: in every valuation that of the first transition whose condition is true
(`Chart.IsPart.enabled_of_find?_eq_some`), and if there is none, the loop that ignores the event
(`Chart.IsPart.enabled_of_find?_eq_none`), unless the state may block the event.

The guards of transitions and of loops are built at different times, but from the same record of
the conditions so far. `StateRecord.taken` is the bridge: whether some transition in a record is
enabled in a valuation. A clause is enabled if its own condition is true and its event was not taken
before it, a loop if its event was not taken at all. The record is by the names of events, and the
empty name stands for having no event. So the exact statements are about events with a name.
-/

namespace ChartNet

/-! ### Conditions of events -/

@[simp] theorem Expr.withEvent_and (event : Option String) (a b : Expr) :
    (a.and b).withEvent event = (a.withEvent event).and (b.withEvent event) := by
  cases event <;> rfl

@[simp] theorem Expr.withEvent_not (event : Option String) (a : Expr) :
    a.not.withEvent event = (a.withEvent event).not := by
  cases event <;> rfl

@[simp] theorem Expr.withEvent_bool (event : Option String) (b : Bool) :
    (Expr.bool b).withEvent event = .bool b := by
  cases event <;> rfl

/-- The data of an event is renamed in each condition of a guard. -/
theorem withEvent_guardAfter (event : Option String) (previous : List Expr)
    (current : Option Expr) :
    (guardAfter previous current).withEvent event =
      guardAfter (previous.map (·.withEvent event)) (current.map (·.withEvent event)) := by
  induction previous using List.reverseRecOn with
  | nil => cases current <;> simp
  | append_singleton ps p ih => simp [ih]

/-- Only the event itself has its key, unless its name is empty. -/
theorem claimKey_eq_iff {event : Option String} {name : String} (hname : name ≠ "") :
    claimKey event = name ↔ event = some name := by
  cases event with
  | none => simp [claimKey, hname.symm]
  | some e => simp [claimKey]

/-- Whether a transition in a record under the key of an event is enabled in a valuation. -/
def StateRecord.taken (r : StateRecord) (v : Valuation) (event : Option String) : Bool :=
  r.claims.any fun p => p.1 == claimKey event && v.admits (p.2.map (·.withEvent event))

namespace StateRecord

variable (r : StateRecord) (v : Valuation) (event : Option String)

/-- Without an unconditional transition the conditions decide. -/
theorem taken_of_conditional (h : r.isUnconditional event = false) :
    r.taken v event = (r.conditions event).any fun c => v.holds (c.withEvent event) := by
  obtain ⟨id, claims⟩ := r
  simp only [isUnconditional, taken, conditions] at *
  induction claims with
  | nil => rfl
  | cons p ps ih =>
    obtain ⟨key, condition⟩ := p
    rw [List.contains_cons, Bool.or_eq_false_iff] at h
    rw [List.any_cons, ih h.2]
    by_cases hkey : key = claimKey event
    · cases condition with
      | none => simp [hkey] at h
      | some c => simp [hkey]
    · simp [hkey]

theorem taken_push (k : Clause) :
    (r.push k).taken v event = (r.taken v event ||
      (claimKey k.event == claimKey event && v.admits (k.condition.map (·.withEvent event)))) := by
  simp [taken, push]

/-- The events of a record have names, and their keys are claimed. -/
theorem mem_events {r : StateRecord} {event : String} :
    event ∈ r.events ↔ event ≠ "" ∧ ∃ condition, (event, condition) ∈ r.claims := by
  simp only [events, List.partition_eq_filter_filter, List.mem_filter, List.mem_map,
    List.mem_append, claimKey, Option.getD_none, bne_iff_ne, Prod.exists, exists_and_right,
    exists_eq_right]
  rw [and_comm]
  refine and_congr_right fun _ => exists_congr fun condition => ?_
  cases condition <;> simp

/-- A guard after the conditions of a record is true if the own condition is and nothing is
taken. -/
theorem admits_guardAfter (h : r.isUnconditional event = false) (current : Option Expr) :
    v.holds ((guardAfter (r.conditions event) current).withEvent event) =
      (v.admits (current.map (·.withEvent event)) && !r.taken v event) := by
  rw [withEvent_guardAfter, v.holds_guardAfter, r.taken_of_conditional v event h]
  simp [List.any_eq_not_all_not, Function.comp_def]

end StateRecord

/-! ### Transitions by event -/

/-- The transitions of a state on an event, or without one, in the order of their declaration. -/
def State.transitionsOn (s : State) (event : Option String) : List Transition :=
  (s.transitions.getD []).filter (·.event == event)

/-- Whether some transition of a chart is triggered by an event. -/
def Chart.Handles (c : Chart) (event : String) : Prop :=
  ∃ s ∈ c.states, s.transitionsOn (some event) ≠ []

/-- Whether a state has a transition without an event and without a condition. -/
def State.CanAlwaysLeave (s : State) : Prop :=
  ∃ t ∈ s.transitionsOn none, t.cond = none

namespace Valuation

/-- Whether the condition of a transition is **true**; it reads the data of the event. -/
def permits (v : Valuation) (t : Transition) : Bool :=
  match t.cond.mapM (Source.parse ·) with
  | .ok condition => v.admits (condition.map (·.withEvent t.event))
  | .error _ => false

/-- The edges whose guards are true. -/
def enabled (v : Valuation) (edges : List Edge) : List Edge :=
  edges.filter fun e => v.admits e.guard

theorem enabled_append (v : Valuation) (edges edges' : List Edge) :
    v.enabled (edges ++ edges') = v.enabled edges ++ v.enabled edges' :=
  List.filter_append edges edges'

end Valuation

/-- The clauses of a part on an event, or without one. -/
def StatePart.on (p : StatePart) (event : Option String) : List Clause :=
  p.clauses.filter (·.event == event)

/-! ### Clauses -/

namespace Chart

variable {c : Chart} {setting : Setting} {s : State} {automaton : String} {es : Events}
  {r r' : StateRecord}

theorem Compiles.permits_eq {k : Clause} (h : c.Compiles setting s automaton es r k)
    (v : Valuation) :
    v.permits k.transition = v.admits (k.condition.map (·.withEvent k.event)) := by
  simp only [Valuation.permits, h.parsed, Clause.event]

/-- A clause is **enabled** if its condition is true and its event was not taken before. -/
theorem Compiles.admits_guard {k : Clause} (h : c.Compiles setting s automaton es r k)
    (v : Valuation) :
    v.admits k.edge.guard = (v.permits k.transition && !r.taken v k.event) := by
  rw [h.guard, Valuation.admits_some, r.admits_guardAfter v k.event h.fresh, h.permits_eq]

namespace Clauses

theorem id_eq {ks : List Clause} (h : c.Clauses setting s automaton es r ks r') : r'.id = r.id := by
  induction h with
  | nil r => rfl
  | cons first others ih => exact ih

theorem claims_eq {ks : List Clause} (h : c.Clauses setting s automaton es r ks r') :
    r'.claims = r.claims ++ ks.map fun k => (claimKey k.event, k.condition) := by
  induction h with
  | nil r => simp
  | cons first others ih => simp [ih, StateRecord.push]

theorem compiles_of_mem {ks : List Clause} (h : c.Clauses setting s automaton es r ks r')
    {k : Clause} (hk : k ∈ ks) : ∃ r₁, c.Compiles setting s automaton es r₁ k := by
  induction h with
  | nil r => simp at hk
  | cons first others ih =>
    rcases List.mem_cons.1 hk with rfl | hk
    · exact ⟨_, first⟩
    · exact ih hk

/-- Of the clauses on one event, or without one, **at most one** is enabled, and none if the event
was taken before. -/
theorem length_enabled_le {ks : List Clause} (h : c.Clauses setting s automaton es r ks r')
    (v : Valuation) (event : Option String) :
    ((ks.filter (·.event == event)).filter fun k => v.admits k.edge.guard).length ≤
      if r.taken v event then 0 else 1 := by
  induction h with
  | nil r => simp
  | @cons r r' k ks first others ih =>
    rw [StateRecord.taken_push] at ih
    by_cases hk : k.event = event
    · subst hk
      simp only [beq_self_eq_true, Bool.true_and, ← first.permits_eq] at ih
      simp only [beq_self_eq_true, List.filter_cons, if_true, first.admits_guard v]
      cases htaken : r.taken v k.event <;> cases htrue : v.permits k.transition <;>
        simp only [htaken, htrue, Bool.or_true, Bool.or_false, Bool.not_true, Bool.not_false,
          Bool.and_true, Bool.and_false, Bool.false_eq_true, if_true, if_false,
          List.length_cons] at ih ⊢ <;> omega
    · simp only [beq_eq_false_iff_ne.2 hk, List.filter_cons, Bool.false_eq_true, if_false]
      refine ih.trans ?_
      cases htaken : r.taken v event
      · split <;> simp
      · simp

/-- Of the clauses on an event with a name **the first** whose condition is true is enabled and no
other; none is if the event was taken before. -/
theorem enabled_eq {ks : List Clause} (h : c.Clauses setting s automaton es r ks r')
    (v : Valuation) {event : String} (hname : event ≠ "") :
    (ks.filter (·.event == some event)).filter (fun k => v.admits k.edge.guard) =
      if r.taken v (some event) then []
      else ((ks.filter (·.event == some event)).find? fun k => v.permits k.transition).toList := by
  induction h with
  | nil r => simp
  | @cons r r' k ks first others ih =>
    rw [StateRecord.taken_push] at ih
    by_cases hk : k.event = some event
    · rw [hk, beq_self_eq_true, Bool.true_and] at ih
      rw [← hk, ← first.permits_eq] at ih
      rw [← hk]
      simp only [beq_self_eq_true, List.filter_cons, if_true, List.find?_cons,
        first.admits_guard v]
      rw [ih]
      cases r.taken v k.event <;> cases v.permits k.transition <;> simp
    · have hkey : claimKey k.event ≠ claimKey (some event) := mt (claimKey_eq_iff hname).1 hk
      simp only [beq_eq_false_iff_ne.2 hk, List.filter_cons]
      simpa [beq_eq_false_iff_ne.2 hkey] using ih

end Clauses

/-! ### Loops -/

/-- A loop is an edge from a location to itself that does nothing. -/
structure IsLoop (l : String) (e : Edge) : Prop where
  location : e.location = l
  destinations : e.destinations = [{ location := some l }]

/-- A **loop** receives its event, does nothing, and is enabled if the event is not taken. -/
theorem loop?_spec {event : String} {loop : Edge} (h : loop? r event = some loop) :
    IsLoop r.id loop ∧ loop.action = some (receiveAction event) ∧
      ∀ v : Valuation, v.admits loop.guard = !r.taken v (some event) := by
  simp only [loop?] at h
  split at h
  · simp at h
  · rename_i hloop
    have hunconditional : r.isUnconditional (some event) = false := by simp_all
    obtain rfl := Option.some.inj h
    refine ⟨⟨rfl, rfl⟩, rfl, fun v => ?_⟩
    simp only
    split
    · rename_i hempty
      have hnil : r.conditions (some event) = [] := by simpa using hempty
      simp [r.taken_of_conditional v _ hunconditional, hnil]
    · rw [Valuation.admits_some, r.admits_guardAfter v _ hunconditional]
      simp

/-- There is a loop unless the event is handled always or the state may block it. -/
theorem isSome_loop? (event : String) :
    (loop? r event).isSome =
      !(r.isUnconditional (some event) ||
        ((r.conditions (some event)).isEmpty && isSynched event)) := by
  simp only [loop?]
  split
  · rename_i h
    rw [h]
    rfl
  · rename_i h
    rw [Bool.eq_false_iff.2 h]
    rfl

/-- In a list whose elements have distinct keys a part with one key comes from one element. -/
private theorem flatMap_eq_of_mem {α β : Type} (key : α → String) {l : List α} {f : α → List β}
    {x : α} (hnodup : (l.map key).Nodup) (hx : x ∈ l)
    (hf : ∀ y ∈ l, key y ≠ key x → f y = []) : l.flatMap f = f x := by
  obtain ⟨before, after, rfl⟩ := List.append_of_mem hx
  rw [List.map_append, List.map_cons, List.nodup_middle, List.nodup_cons, List.mem_append,
    not_or] at hnodup
  have hnil : ∀ part : List α, (∀ y ∈ part, y ∈ before ++ x :: after) → key x ∉ part.map key →
      part.flatMap f = [] := by
    intro part hpart hkey
    refine List.flatMap_eq_nil_iff.2 fun y hy => hf y (hpart y hy) fun he => hkey ?_
    exact he ▸ List.mem_map_of_mem hy
  rw [List.flatMap_append, List.flatMap_cons, hnil before (by simp +contextual) hnodup.1.1,
    hnil after (by simp +contextual) hnodup.1.2]
  simp

/-- The loop of an event is the only one among those of its record that receives it. -/
private theorem filter_filterMap_loop? {handled : List String} (hnodup : handled.Nodup)
    {event : String} (hevent : event ∈ handled) :
    (handled.filterMap (loop? r)).filter (·.action == some (receiveAction event)) =
      (loop? r event).toList := by
  have hflat : (handled.filterMap (loop? r)).filter (·.action == some (receiveAction event)) =
      handled.flatMap fun e =>
        (loop? r e).toList.filter (·.action == some (receiveAction event)) := by
    rw [List.filterMap_eq_flatMap_toList, List.filter_flatMap]
  rw [hflat, flatMap_eq_of_mem id (x := event) (by simpa using hnodup) hevent]
  · cases hloop : loop? r event with
    | none => rfl
    | some loop => simp [(loop?_spec hloop).2.1]
  · intro e _ hne
    cases hloop : loop? r e with
    | none => rfl
    | some loop =>
      have hother : receiveAction e ≠ receiveAction event :=
        fun h => hne (receiveAction_injective h)
      simp [(loop?_spec hloop).2.1, hother]

/-! ### The edges that receive an event -/

/-- Whether an edge leaves from a location and **receives** an event. -/
def receives (l event : String) (e : Edge) : Bool :=
  e.location == l && e.action == some (receiveAction event)

/-- A transition without an event delivers nothing. -/
theorem not_isDelivery_transitionAction {id : String} {t : Transition} (h : t.event = none) :
    ¬ IsDelivery (transitionAction id t) := by
  have hdash : transitionAction id t =
      "transition-" ++ id ++ "-eventless" ++ "-" ++ digest [.str id, conditionPart t.cond] := by
    simp [transitionAction, h, String.append_assoc]
  rw [hdash]
  exact quiet_digest _ _

theorem transitionAction_eq_iff {id event : String} {t : Transition} :
    transitionAction id t = receiveAction event ↔ t.event = some event := by
  cases hevent : t.event with
  | none =>
    simp only [reduceCtorEq, iff_false]
    exact fun h => not_isDelivery_transitionAction hevent ⟨event, .inr h⟩
  | some other =>
    simp only [transitionAction, hevent, Option.some.injEq]
    exact receiveAction_injective.eq_iff

/-- Edges that send or are quiet receive nothing. -/
theorem filter_receives_eq_nil {edges : List Edge} (h : ∀ e ∈ edges, e.SendsOrQuiet es automaton)
    (l event : String) : edges.filter (receives l event) = [] := by
  refine List.filter_eq_nil_iff.2 fun e he hreceives => ?_
  simp only [receives, Bool.and_eq_true, beq_iff_eq] at hreceives
  exact (h e he).action_ne event hreceives.2

/-- Of a clause only the edge of its transition can receive. -/
theorem Compiles.filter_edges {k : Clause} (h : c.Compiles setting s automaton es r k)
    (l event : String) :
    k.edges.filter (receives l event) =
      if s.id = l ∧ k.event = some event then [k.edge] else [] := by
  have hedge : receives l event k.edge = decide (s.id = l ∧ k.event = some event) := by
    simp only [receives, h.belongs.location, h.belongs.action, Bool.decide_and]
    congr 1
    rw [Bool.eq_iff_iff, beq_iff_eq, decide_eq_true_iff, Option.some_inj]
    exact transitionAction_eq_iff
  rw [Clause.edges, List.filter_cons, hedge, filter_receives_eq_nil h.rest]
  simp

theorem map_edge_sublist (ks : List Clause) :
    (ks.map (·.edge)).Sublist (ks.flatMap (·.edges)) := by
  induction ks with
  | nil => exact .slnil
  | cons k ks ih =>
    rw [List.map_cons, List.flatMap_cons, Clause.edges, List.cons_append]
    exact (ih.trans (List.sublist_append_right _ _)).cons_cons _

/-- Of a part only the edges of its transitions on the event receive it. -/
theorem IsPart.filter_edges {p : StatePart} (h : c.IsPart setting automaton es p)
    (l event : String) :
    p.edges.filter (receives l event) =
      if p.state.id = l then (p.clauses.filter (·.event == some event)).map (·.edge) else [] := by
  have hclause : ∀ k ∈ p.clauses, k.edges.filter (receives l event) =
      if p.state.id = l ∧ k.event = some event then [k.edge] else [] := by
    intro k hk
    obtain ⟨r, hr⟩ := h.clauses.compiles_of_mem hk
    exact hr.filter_edges l event
  rw [StatePart.edges, List.filter_flatMap, List.flatMap_congr hclause]
  split
  · rename_i hid
    simp only [hid, true_and]
    induction p.clauses with
    | nil => rfl
    | cons k ks ih =>
      rw [List.flatMap_cons, ih, List.filter_cons]
      by_cases hk : k.event = some event <;> simp [hk]
  · rename_i hid
    simp [hid]

/-- Each clause has its claim in a record of all transitions. -/
theorem Clauses.mem_claims {k : Clause} {ks : List Clause}
    (h : c.Clauses setting s automaton es r ks r') (hk : k ∈ ks) :
    (claimKey k.event, k.condition) ∈ r'.claims := by
  rw [h.claims_eq]
  exact List.mem_append_right _
    (List.mem_map_of_mem (f := fun k => (claimKey k.event, k.condition)) hk)

/-- In a record of all transitions the events are those of the transitions, if they have a name. -/
theorem mem_events_of_mem {k : Clause} {ks : List Clause} {event : String}
    (h : c.Clauses setting s automaton es r ks r') (hk : k ∈ ks) (hevent : k.event = some event)
    (hname : event ≠ "") : event ∈ r'.events := by
  refine StateRecord.mem_events.2 ⟨hname, k.condition, ?_⟩
  have hclaim := h.mem_claims hk
  rwa [hevent] at hclaim

/-- No loop receives an event without a name. -/
theorem filter_loops_empty (records : List StateRecord) (l : String) :
    (loops records).filter (receives l "") = [] := by
  refine List.filter_eq_nil_iff.2 fun loop hloop => ?_
  obtain ⟨r, -, hloop⟩ := List.mem_flatMap.1 hloop
  split at hloop
  · simp at hloop
  · obtain ⟨e, he, hloop⟩ := List.mem_filterMap.1 hloop
    obtain ⟨r₁, -, he⟩ := List.mem_flatMap.1 (List.mem_eraseDups.1 he)
    have hother : receiveAction e ≠ receiveAction "" :=
      fun h => (StateRecord.mem_events.1 he).1 (receiveAction_injective h)
    simp [receives, (loop?_spec hloop).2.1, hother]

/-- The loops that receive an event in a state: at most one. -/
theorem filter_loops {records : List StateRecord} (hnodup : (records.map (·.id)).Nodup)
    (hr : r ∈ records) {event : String} (hevent : ∃ r₁ ∈ records, event ∈ r₁.events) :
    (loops records).filter (receives r.id event) =
      if r.isUnconditional none then [] else (loop? r event).toList := by
  have hhandled : event ∈ (records.flatMap (·.events)).eraseDups := by
    rw [List.mem_eraseDups]
    exact List.mem_flatMap.2 hevent
  have hlocation : ∀ r₁ : StateRecord, ∀ loop ∈ (if r₁.isUnconditional none then []
      else (records.flatMap (·.events)).eraseDups.filterMap (loop? r₁)), loop.location = r₁.id := by
    intro r₁ loop hloop
    split at hloop
    · simp at hloop
    · obtain ⟨e, -, he⟩ := List.mem_filterMap.1 hloop
      exact (loop?_spec he).1.location
  rw [loops, List.filter_flatMap, flatMap_eq_of_mem _ hnodup hr]
  · split
    · rfl
    · have hloops := filter_filterMap_loop? (r := r)
        (nodup_eraseDups (records.flatMap (·.events))) hhandled
      rw [← hloops]
      refine List.filter_congr fun loop hloop => ?_
      obtain ⟨e, -, he⟩ := List.mem_filterMap.1 hloop
      simp [receives, (loop?_spec he).1.location]
  · intro r₁ _ hne
    refine List.filter_eq_nil_iff.2 fun loop hloop => ?_
    simp [receives, hlocation r₁ loop hloop, hne]

/-! ### Parts -/

namespace IsPart

variable {p : StatePart} (h : c.IsPart setting automaton es p)

include h

theorem map_transition_on (event : Option String) :
    (p.on event).map (·.transition) = p.state.transitionsOn event := by
  rw [State.transitionsOn, ← h.transitions, List.filter_map]
  rfl

theorem belongs (event : Option String) :
    List.Forall₂ (c.Belongs setting p.state) (p.state.transitionsOn event)
      ((p.on event).map (·.edge)) := by
  rw [← h.map_transition_on, List.forall₂_map_left_iff, List.forall₂_map_right_iff,
    List.forall₂_same]
  intro k hk
  obtain ⟨r, hr⟩ := h.clauses.compiles_of_mem (List.mem_of_mem_filter hk)
  exact hr.belongs

/-- In a part at most one clause on an event, or without one, is enabled. -/
theorem length_enabled_on_le (v : Valuation) (event : Option String) :
    (v.enabled ((p.on event).map (·.edge))).length ≤ 1 := by
  have hclauses := h.clauses.length_enabled_le v event
  have hfresh : StateRecord.taken { id := p.state.id } v event = false := rfl
  rw [hfresh, if_neg Bool.false_ne_true] at hclauses
  rw [Valuation.enabled, List.filter_map, List.length_map]
  exact hclauses

/-- In a part exactly the first clause on an event whose condition is true is enabled. -/
theorem enabled_on (v : Valuation) {event : String} (hname : event ≠ "") :
    v.enabled ((p.on (some event)).map (·.edge)) =
      ((p.on (some event)).find? fun k => v.permits k.transition).toList.map (·.edge) := by
  have hclauses := h.clauses.enabled_eq v hname
  have hfresh : StateRecord.taken { id := p.state.id } v (some event) = false := rfl
  rw [hfresh, if_neg Bool.false_ne_true] at hclauses
  rw [Valuation.enabled, List.filter_map]
  exact congrArg (List.map (·.edge)) hclauses

/-- An event is taken if the condition of one of its transitions is true. -/
theorem taken_record (v : Valuation) {event : String} (hname : event ≠ "") :
    p.record.taken v (some event) = (p.on (some event)).any fun k => v.permits k.transition := by
  rw [StateRecord.taken, h.clauses.claims_eq, List.nil_append, List.any_map, StatePart.on,
    List.any_filter, Bool.eq_iff_iff, List.any_eq_true, List.any_eq_true]
  refine exists_congr fun k => and_congr_right fun hk => ?_
  obtain ⟨r, hr⟩ := h.clauses.compiles_of_mem hk
  by_cases hevent : k.event = some event
  · simp [hr.permits_eq, hevent]
  · have hkey : claimKey k.event ≠ claimKey (some event) := mt (claimKey_eq_iff hname).1 hevent
    simp [hevent, hkey]

omit h in
private theorem eq_none_of_mapM {cond : Option String} {condition : Option Expr}
    (h : cond.mapM (Source.parse ·) = .ok condition) : condition = none ↔ cond = none := by
  cases cond with
  | none =>
    simp only [Option.mapM_none, pure, Except.pure, Except.ok.injEq] at h
    simp [← h]
  | some text =>
    cases hparse : Source.parse text with
    | error e => simp [hparse, Except.map, Functor.map] at h
    | ok e =>
      simp only [Option.mapM_some, hparse, Functor.map, Except.map, Except.ok.injEq] at h
      simp [← h]

/-- If a record can always leave without an event, so can the state: a transition on an event of the
empty name would make it one whose events never fire. -/
theorem canAlwaysLeave_of_record (hun : p.record.isUnconditional none = true) :
    p.state.CanAlwaysLeave := by
  have hfire := h.fire
  rw [hun, Bool.and_true, List.any_eq_false, ← h.transitions] at hfire
  rw [StateRecord.isUnconditional, h.clauses.claims_eq, List.nil_append, List.contains_iff_mem,
    List.mem_map] at hun
  obtain ⟨k, hk, heq⟩ := hun
  obtain ⟨r, hr⟩ := h.clauses.compiles_of_mem hk
  have hevent : k.event = none := by
    simpa [Clause.event] using hfire _ (List.mem_map_of_mem hk)
  refine ⟨k.transition, ?_, (eq_none_of_mapM hr.parsed).1 (Prod.mk.inj heq).2⟩
  rw [← h.map_transition_on]
  exact List.mem_map_of_mem (List.mem_filter.2 ⟨hk, by simp [hevent]⟩)

/-- A record without conditions and without an unconditional transition is that of no transition. -/
theorem transitionsOn_eq_nil {event : Option String} (hun : p.record.isUnconditional event = false)
    (hnil : p.record.conditions event = []) : p.state.transitionsOn event = [] := by
  rw [← h.map_transition_on, List.map_eq_nil_iff, StatePart.on, List.filter_eq_nil_iff]
  intro k hk hevent
  have hclaim := h.clauses.mem_claims hk
  obtain rfl := beq_iff_eq.1 hevent
  cases hcondition : k.condition with
  | none =>
    rw [hcondition] at hclaim
    simp [StateRecord.isUnconditional, hclaim] at hun
  | some condition =>
    have hmem : condition ∈ p.record.conditions k.event :=
      List.mem_filterMap.2 ⟨_, hclaim, by simp [hcondition]⟩
    simp [hnil] at hmem

end IsPart

/-! ### States -/

/-- The loop by which a part ignores an event, if it has one. -/
def idle (c : Chart) (p : StatePart) (event : String) : List Edge :=
  if c.isRoot || event == "" || p.record.isUnconditional none then []
  else (loop? p.record event).toList

/-- The **edges that receive** an event in a state: those of its transitions on the event, in the
order of their declaration, and then the loop. -/
theorem compile_receiving {a : Automaton} {es' : Events}
    (h : (c.compile setting).Yields es a es') (hs : s ∈ c.states) {event : String}
    (hevent : c.Handles event) :
    ∃ p : StatePart, p.state = s ∧ c.IsPart setting c.name es' p ∧ p.edges.Sublist a.edges ∧
      a.edges.filter (receives s.id event) =
        (p.on (some event)).map (·.edge) ++ c.idle p event := by
  obtain ⟨-, -, hnodup, parts, rest, hstates, hparts, hrest, hedges⟩ := compile_parts h
  obtain ⟨p, hp, rfl⟩ : ∃ p ∈ parts, p.state = s := by
    rw [← hstates] at hs
    exact List.mem_map.1 hs
  have hids : parts.map (·.state.id) = c.states.map (·.id) := by
    rw [← hstates, List.map_map]
    rfl
  have hrecord : ∀ p ∈ parts, p.record.id = p.state.id := fun p hp => (hparts p hp).clauses.id_eq
  have hown : (parts.flatMap (·.edges)).filter (receives p.state.id event) =
      (p.on (some event)).map (·.edge) := by
    rw [List.filter_flatMap, flatMap_eq_of_mem (·.state.id) (hids ▸ hnodup) hp]
    · rw [(hparts p hp).filter_edges, if_pos rfl]
      rfl
    · intro q hq hne
      rw [(hparts q hq).filter_edges, if_neg hne]
  have hloops : (if c.isRoot then [] else loops (parts.map (·.record))).filter
      (receives p.state.id event) = c.idle p event := by
    unfold idle
    cases c.isRoot with
    | true => rfl
    | false =>
      by_cases hname : event = ""
      · subst hname
        simpa using filter_loops_empty (parts.map (·.record)) p.state.id
      have hrecords : ((parts.map (·.record)).map (·.id)).Nodup := by
        rw [List.map_map, List.map_congr_left (g := (·.state.id)) hrecord, hids]
        exact hnodup
      have hhandled : ∃ r₁ ∈ parts.map (·.record), event ∈ r₁.events := by
        obtain ⟨s', hs', hne⟩ := hevent
        rw [← hstates] at hs'
        obtain ⟨q, hq, rfl⟩ := List.mem_map.1 hs'
        rw [← (hparts q hq).map_transition_on, ne_eq, List.map_eq_nil_iff] at hne
        obtain ⟨k, hk⟩ := List.exists_mem_of_ne_nil _ hne
        obtain ⟨hmem, hk⟩ := List.mem_filter.1 hk
        exact ⟨q.record, List.mem_map_of_mem hq,
          mem_events_of_mem (hparts q hq).clauses hmem (beq_iff_eq.1 hk) hname⟩
      have hfilter := filter_loops hrecords (List.mem_map_of_mem hp) hhandled
      rw [hrecord p hp] at hfilter
      simpa [hname] using hfilter
  refine ⟨p, rfl, hparts p hp, ?_, ?_⟩
  · rw [hedges, List.append_assoc]
    refine List.Sublist.trans ?_ (List.sublist_append_left _ _)
    obtain ⟨before, after, rfl⟩ := List.append_of_mem hp
    simp only [List.flatMap_append, List.flatMap_cons]
    exact (List.sublist_append_left _ _).trans (List.sublist_append_right _ _)
  · rw [hedges, List.filter_append, List.filter_append, hown, hloops,
      filter_receives_eq_nil hrest, List.append_nil]

section Exclusion

variable {p : StatePart} (h : c.IsPart setting automaton es p) (v : Valuation) {event : String}

include h

/-- The loop of a part does nothing and is enabled if no condition on the event is true. -/
theorem IsPart.enabled_idle :
    v.enabled (c.idle p event) =
      if (p.on (some event)).any (fun k => v.permits k.transition) then [] else c.idle p event := by
  unfold idle
  split
  · simp [Valuation.enabled]
  · rename_i hidle
    have hname : event ≠ "" := by
      rintro rfl
      simp at hidle
    cases hloop : loop? p.record event with
    | none => simp [Valuation.enabled]
    | some loop =>
      obtain ⟨-, -, hguard⟩ := loop?_spec hloop
      simp only [Valuation.enabled, Option.toList_some, List.filter_cons, List.filter_nil,
        hguard, h.taken_record v hname]
      cases (p.on (some event)).any fun k => v.permits k.transition <;> rfl

omit h in
theorem length_idle_le : (c.idle p event).length ≤ 1 := by
  unfold idle
  split
  · simp
  · exact Option.length_toList_le

theorem IsPart.isLoop_of_mem_idle {e : Edge} (he : e ∈ c.idle p event) : IsLoop p.state.id e := by
  unfold idle at he
  split at he
  · simp at he
  · have hloop := (loop?_spec (Option.mem_toList.1 he)).1
    rwa [h.clauses.id_eq] at hloop

/-- If no condition on an event is true there is a loop, unless the state may block the event. -/
theorem IsPart.idle_ne_nil (hname : event ≠ "") (hroot : c.isRoot = false)
    (hleave : ¬ p.state.CanAlwaysLeave)
    (hblock : ¬ (isSynched event ∧ p.state.transitionsOn (some event) = []))
    (hnone : (p.on (some event)).any (fun k => v.permits k.transition) = false) :
    c.idle p event ≠ [] := by
  have hstay : p.record.isUnconditional none = false := by
    exact Bool.eq_false_iff.2 (mt h.canAlwaysLeave_of_record hleave)
  have hun : p.record.isUnconditional (some event) = false := by
    rw [Bool.eq_false_iff, ne_eq]
    intro hun
    -- an unconditional transition would be true
    have htaken : p.record.taken v (some event) = true := by
      rw [StateRecord.taken, List.any_eq_true]
      exact ⟨(event, none), List.contains_iff_mem.1 hun, by simp [claimKey]⟩
    rw [h.taken_record v hname, hnone] at htaken
    exact Bool.false_ne_true htaken
  have hsome : (loop? p.record event).isSome := by
    rw [isSome_loop?, hun, Bool.false_or, Bool.not_eq_true']
    rw [Bool.eq_false_iff, ne_eq, Bool.and_eq_true, List.isEmpty_iff]
    exact fun ⟨hnil, hsynched⟩ => hblock ⟨hsynched, h.transitionsOn_eq_nil hun hnil⟩
  obtain ⟨loop, hloop⟩ := Option.isSome_iff_exists.1 hsome
  simp [idle, hroot, hname, hstay, hloop]

/-- Of the transitions on an event, each with its edge, the first whose condition is true is that of
the first clause. -/
theorem IsPart.find?_zip :
    ((p.state.transitionsOn (some event)).zip ((p.on (some event)).map (·.edge))).find?
      (fun p => v.permits p.1) = ((p.on (some event)).find? fun k => v.permits k.transition).map
        fun k => (k.transition, k.edge) := by
  rw [← h.map_transition_on, List.zip_map', List.find?_map]
  rfl

/-- If no condition on an event is true, only the loop is enabled. -/
theorem IsPart.enabled_of_find?_eq_none (hname : event ≠ "")
    (hfirst : ((p.on (some event)).find? fun k => v.permits k.transition) = none) :
    v.enabled ((p.on (some event)).map (·.edge) ++ c.idle p event) = c.idle p event ∧
      ∀ t ∈ p.state.transitionsOn (some event), v.permits t = false := by
  have hany : (p.on (some event)).any (fun k => v.permits k.transition) = false := by
    rw [List.any_eq_false]
    exact List.find?_eq_none.1 hfirst
  constructor
  · rw [v.enabled_append, h.enabled_on v hname, hfirst, h.enabled_idle, hany]
    rfl
  · intro t ht
    rw [← h.map_transition_on] at ht
    obtain ⟨k, hk, rfl⟩ := List.mem_map.1 ht
    simpa using List.find?_eq_none.1 hfirst k hk

/-- If a condition on an event is true, the edge of the first such transition alone is enabled. -/
theorem IsPart.enabled_of_find?_eq_some (hname : event ≠ "") {k : Clause}
    (hfirst : ((p.on (some event)).find? fun k => v.permits k.transition) = some k) :
    v.enabled ((p.on (some event)).map (·.edge) ++ c.idle p event) = [k.edge] ∧
      (p.state.transitionsOn (some event)).find? v.permits = some k.transition := by
  have htrue : v.permits k.transition = true := by simpa using List.find?_some hfirst
  have hmem : k ∈ p.on (some event) := List.mem_of_find?_eq_some hfirst
  have hidle : v.enabled (c.idle p event) = [] := by
    rw [h.enabled_idle v, if_pos (List.any_eq_true.2 ⟨k, hmem, htrue⟩)]
  constructor
  · rw [v.enabled_append, h.enabled_on v hname, hfirst, hidle]
    rfl
  · rw [← h.map_transition_on, List.find?_map]
    exact congrArg (Option.map (·.transition)) hfirst

end Exclusion

end Chart

end ChartNet
