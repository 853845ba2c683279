import ChartNet.Proofs.Network.Stages
import ChartNet.Proofs.Order.Declared

/-!
# Vectors in any order

The order in which automata come into a composition shows in its vectors, but not in what they say:
a synchronisation **joins** automata by their actions, and the set of these joints
(`Composition.joints`) depends only on who is registered for which event and on the actions of the
automata. Completing a composition adds a joint for each action that has none
(`Composition.joints_coverAll`), whatever comes first.
-/

namespace ChartNet

/-! ### Joints -/

/-- What a synchronisation **joins**: its result, and the action by which each automaton takes
part. -/
def Sync.joint (s : Sync) : String × (String → Option String) :=
  (s.result, assocGet? s.participants)

/-- The **joints** of a composition: what its synchronisations join, in any order and however
often. -/
def Composition.joints (c : Composition) : Set (String × (String → Option String)) :=
  {j | ∃ s ∈ c.syncs, s.joint = j}

/-- The participation of some automata by one action. -/
def together (names : List String) (action : String) (x : String) : Option String :=
  if x ∈ names then some action else none

theorem together_congr {names names' : List String} (h : ∀ x, x ∈ names ↔ x ∈ names')
    (action : String) : together names action = together names' action := by
  funext x
  simp only [together, h]

theorem Sync.Joins.assocGet?_eq {s : Sync} {names : List String} {action : String}
    (h : s.Joins names action) : assocGet? s.participants = together names action := by
  funext x
  unfold together
  split
  · rename_i hx
    exact h.get hx
  · rename_i hx
    have hnone : s.participants.find? (·.1 == x) = none :=
      List.find?_eq_none.2 fun p hp hname => hx (beq_iff_eq.1 hname ▸ ((h.mem p).1 hp).1)
    simp [assocGet?, hnone]

/-! ### Events with the same members -/

/-- Two events are **alike**: they have the same fields, and the same automata in each role. -/
structure Event.Alike (e e' : Event) : Prop where
  bare : e.bare = e'.bare
  members : ∀ role x, x ∈ (e.members role).map (·.1) ↔ x ∈ (e'.members role).map (·.1)

namespace Event

/-- The **joints** of an event: what its vectors join. -/
def joints (e : Event) : Set (String × (String → Option String)) :=
  {j | ∃ s ∈ e.vectors, s.joint = j}

theorem hasSenders_iff {e : Event} : e.hasSenders ↔ ∃ x, x ∈ (e.members .sender).map (·.1) := by
  rw [hasSenders, Bool.not_eq_true', List.isEmpty_eq_false_iff_exists_mem]
  simp [members]

theorem hasReceivers_iff {e : Event} : e.hasReceivers ↔
    ∃ x, x ∈ (e.members .receiver).map (·.1) := by
  rw [hasReceivers, Bool.not_eq_true', List.isEmpty_eq_false_iff_exists_mem]
  simp [members]

/-- An event joins its buffer with each of its senders, and with all of its receivers. -/
theorem mem_joints {e : Event} {j : String × (String → Option String)} :
    j ∈ e.joints ↔
      (∃ x, x ∈ (e.members .sender).map (·.1) ∧
        j = (sendAction e.name, together [e.name, x] (sendAction e.name))) ∨
      e.hasReceivers ∧ j = (receiveAction e.name,
        together (e.name :: (e.members .receiver).map (·.1)) (receiveAction e.name)) := by
  have hjoins (names : List String) (action : String) :=
    (Sync.joins_arrange action names action).assocGet?_eq
  have hsend (x : String) := hjoins [e.name, x] (sendAction e.name)
  have hreceive := hjoins (e.name :: e.receivers.map (·.1)) (receiveAction e.name)
  simp only [List.map_cons, List.map_nil, List.map_map, Function.comp_def] at hsend hreceive
  cases hr : e.hasReceivers <;>
    simp [joints, vectors, Sync.joint, hr, hsend, hreceive, members, or_and_right,
      exists_or, eq_comm]

namespace Alike

variable {e e' : Event} (h : e.Alike e')

include h

theorem name : e.name = e'.name := congrArg (·.name) h.bare

theorem vars : e.vars = e'.vars := by
  have hbare : e.bare.vars = e'.bare.vars := by rw [h.bare]
  exact hbare

theorem hasSenders : e.hasSenders = e'.hasSenders := by
  rw [Bool.eq_iff_iff, hasSenders_iff, hasSenders_iff]
  exact exists_congr (h.members .sender)

theorem hasReceivers : e.hasReceivers = e'.hasReceivers := by
  rw [Bool.eq_iff_iff, hasReceivers_iff, hasReceivers_iff]
  exact exists_congr (h.members .receiver)

theorem isRemovable : e.isRemovable = e'.isRemovable := by
  rw [Event.isRemovable, Event.isRemovable, h.hasSenders, h.name]

theorem buffer : e.buffer = e'.buffer := by
  rw [Event.buffer, Event.buffer, h.hasReceivers, h.name]

/-- **Events that are alike have the same joints**, whatever the order of their members. -/
theorem joints : e.joints = e'.joints := by
  have hreceivers : ∀ x, x ∈ e'.name :: (e.members .receiver).map (·.1) ↔
      x ∈ e'.name :: (e'.members .receiver).map (·.1) := fun x => by
    rw [List.mem_cons, List.mem_cons, h.members]
  ext j
  simp only [mem_joints, h.name, h.hasReceivers, together_congr hreceivers, h.members]

end Alike

/-- What is the same for events that are alike is the same for lists of them. -/
theorem map_eq_of_alike {β : Type*} {f : Event → β} {l l' : List Event}
    (h : List.Forall₂ Alike l l') (hf : ∀ {e e' : Event}, e.Alike e' → f e = f e') :
    l.map f = l'.map f := by
  rw [← List.forall₂_eq_eq_eq, List.forall₂_map_left_iff, List.forall₂_map_right_iff]
  exact h.imp fun _ _ => hf

theorem filter_alike {p : Event → Bool} {l l' : List Event} (h : List.Forall₂ Alike l l')
    (hp : ∀ {e e' : Event}, e.Alike e' → p e = p e') :
    List.Forall₂ Alike (l.filter p) (l'.filter p) :=
  List.rel_filter (R := Alike) (p := p) (q := p)
    (fun _ _ halike => (congrArg (· = true) (hp halike)).to_iff) h

theorem mapM_vars_of_alike {l l' : List Event} (h : List.Forall₂ Alike l l') :
    l.mapM Event.vars = l'.mapM Event.vars := by
  induction h with
  | nil => rfl
  | cons halike _ ih => rw [List.mapM_cons, List.mapM_cons, halike.vars, ih]

theorem unsentActions_of_alike {l l' : List Event} (h : List.Forall₂ Alike l l') :
    unsentActions l = unsentActions l' :=
  map_eq_of_alike (filter_alike h fun h => by rw [h.hasSenders, h.hasReceivers])
    fun h => by rw [h.name]

end Event

/-! ### Adding synchronisations -/

namespace Composition

variable {c c' : Composition}

/-- A synchronisation of automata that are elements can be added, and adds its joint. -/
theorem addSync_of_mem (names : List String) (hne : names ≠ []) (h : ∀ x ∈ names, x ∈ c.elements)
    (result action : String) : ∃ c', c.addSync result (names.map (·, action)) = .ok c' := by
  have hjoins := Sync.joins_arrange result names action
  unfold addSync
  simp only
  rw [if_neg, List.find?_eq_none.2]
  · exact ⟨_, rfl⟩
  · intro p hp
    simpa using h p.1 ((hjoins.mem p).1 hp).1
  · rw [List.isEmpty_iff]
    intro hempty
    obtain ⟨x, hx⟩ := List.exists_mem_of_ne_nil names hne
    have hmem := (hjoins.mem (x, action)).2 ⟨hx, rfl⟩
    simp [hempty] at hmem

theorem joints_addSync {names : List String} {result action : String}
    (h : c.addSync result (names.map (·, action)) = .ok c') :
    c'.elements = c.elements ∧ c'.joints = c.joints ∪ {(result, together names action)} := by
  rw [addSync_ok h]
  refine ⟨rfl, ?_⟩
  ext j
  simp [joints, Sync.joint, (Sync.joins_arrange result names action).assocGet?_eq, or_and_right,
    exists_or, eq_comm, or_comm]

/-! ### Adding events -/

/-- An event can be added if it is new and its members are elements. -/
theorem exists_addEvent {e : Event} (hnew : e.name ∉ c.elements)
    (hmembers : ∀ role, ∀ x ∈ (e.members role).map (·.1), x ∈ c.elements) :
    ∃ c', c.addEvent e = .ok c' := by
  have hfold : ∀ (senders : List (String × String)) {c : Composition}, e.name ∈ c.elements →
      (∀ x ∈ senders.map (·.1), x ∈ c.elements) → ∃ c', senders.foldlM (fun c sender =>
        c.addSync (sendAction e.name)
          [(e.name, sendAction e.name), (sender.1, sendAction e.name)]) c = .ok c' ∧
        c'.elements = c.elements := by
    intro senders
    induction senders with
    | nil => exact fun _ _ => ⟨_, rfl, rfl⟩
    | cons sender senders ih =>
      intro c he hsenders
      rw [List.map_cons, List.forall_mem_cons] at hsenders
      obtain ⟨c₁, hc₁⟩ := addSync_of_mem (c := c) [e.name, sender.1] (by simp)
        (by simp [he, hsenders.1]) (sendAction e.name) (sendAction e.name)
      have helements := (joints_addSync hc₁).1
      obtain ⟨c', hc', helements'⟩ := ih (c := c₁) (helements ▸ he) (helements ▸ hsenders.2)
      exact ⟨c', by rw [List.foldlM_cons, Result.bind_eq_ok]; exact ⟨c₁, hc₁, hc'⟩,
        helements'.trans helements⟩
  have hadd : c.addElement e.name = .ok { c with elements := c.elements ++ [e.name] } := by
    rw [addElement, if_neg hnew]
  obtain ⟨c₁, hc₁, helements⟩ := hfold e.senders
    (c := { c with elements := c.elements ++ [e.name] }) (by simp)
    fun x hx => List.mem_append_left _ (hmembers .sender x hx)
  simp only [addEvent, Result.bind_eq_ok]
  split
  · obtain ⟨c', hc'⟩ := addSync_of_mem (c := c₁) (e.name :: e.receivers.map (·.1))
      (by simp) (List.forall_mem_cons.2 ⟨by simp [helements], fun x hx =>
        helements ▸ List.mem_append_left _ (hmembers .receiver x hx)⟩)
      (receiveAction e.name) (receiveAction e.name)
    simp only [List.map_cons, List.map_map, Function.comp_def] at hc'
    exact ⟨c', _, hadd, c₁, hc₁, hc'⟩
  · exact ⟨c₁, _, hadd, c₁, hc₁, rfl⟩

/-- **Adding events adds their joints**, if they are new and their members are there. -/
theorem joints_addEvents (live : List Event) (hn : (c.elements ++ live.map (·.name)).Nodup)
    (hmembers : ∀ e ∈ live, ∀ role, ∀ x ∈ (e.members role).map (·.1), x ∈ c.elements) :
    ∃ c', live.foldlM addEvent c = .ok c' ∧ c'.elements = c.elements ++ live.map (·.name) ∧
      c'.joints = c.joints ∪ {j | ∃ e ∈ live, j ∈ e.joints} := by
  induction live generalizing c with
  | nil => exact ⟨c, rfl, by simp, by simp⟩
  | cons e live ih =>
    rw [List.forall_mem_cons] at hmembers
    have hnew : e.name ∉ c.elements := fun hmem =>
      (List.nodup_append.1 hn).2.2 _ hmem _ (by simp) rfl
    obtain ⟨c₁, hc₁⟩ := exists_addEvent hnew hmembers.1
    obtain ⟨-, helements, hsyncs⟩ := addEvent_ok hc₁
    have hjoints : c₁.joints = c.joints ∪ e.joints := by
      ext j
      simp [joints, Event.joints, hsyncs, or_and_right, exists_or]
    obtain ⟨c', hc', helements', hjoints'⟩ := ih (c := c₁)
      (by rw [helements]; simpa using hn)
      fun f hf role x hx => helements ▸ List.mem_append_left _ (hmembers.2 f hf role x hx)
    refine ⟨c', ?_, ?_, ?_⟩
    · rw [List.foldlM_cons, Result.bind_eq_ok]
      exact ⟨c₁, hc₁, hc'⟩
    · simp [helements', helements]
    · rw [hjoints', hjoints, Set.union_assoc]
      congr 1
      ext j
      simp

/-! ### Completing -/

/-- The **joints** that an automaton lacks: one for each of its actions by which it does not take
part in any of some joints. -/
def lacking (joints : Set (String × (String → Option String))) (a : Automaton) :
    Set (String × (String → Option String)) :=
  {j | ∃ action ∈ a.actions, (¬ ∃ k ∈ joints, k.2 a.name = some action) ∧
    j = (action, together [a.name] action)}

theorem mem_uncovered {a : Automaton} {action : String} :
    action ∈ Model.uncovered c a ↔
      action ∈ a.actions ∧ ¬ ∃ k ∈ c.joints, k.2 a.name = some action := by
  simp [Model.uncovered, syncedActions, joints, Sync.joint]

/-- Synchronisations of one automaton alone can be added, and add their joints. -/
theorem foldlM_addSync {x : String} (hx : x ∈ c.elements) (actions : List String) :
    ∃ c', actions.foldlM (fun c action => c.addSync action [(x, action)]) c = .ok c' ∧
      c'.elements = c.elements ∧
      c'.joints = c.joints ∪ {j | ∃ action ∈ actions, j = (action, together [x] action)} := by
  induction actions generalizing c with
  | nil => exact ⟨c, rfl, rfl, by simp⟩
  | cons action actions ih =>
    obtain ⟨c₁, hc₁⟩ := addSync_of_mem (c := c) [x] (by simp) (by simpa using hx) action action
    obtain ⟨helements, hjoints⟩ := joints_addSync hc₁
    obtain ⟨c', hc', helements', hjoints'⟩ := ih (helements ▸ hx)
    refine ⟨c', ?_, helements'.trans helements, ?_⟩
    · rw [List.foldlM_cons, Result.bind_eq_ok]
      exact ⟨c₁, hc₁, hc'⟩
    · rw [hjoints', hjoints, Set.union_assoc]
      congr 1
      ext j
      simp

/-- **Covering** an automaton adds the joints that it lacks. -/
theorem joints_cover {a : Automaton} (ha : a.name ∈ c.elements) :
    ∃ c', c.cover a = .ok c' ∧ c'.elements = c.elements ∧
      c'.joints = c.joints ∪ lacking c.joints a := by
  obtain ⟨c', hc', helements, hjoints⟩ := foldlM_addSync ha (Model.uncovered c a)
  refine ⟨c', hc', helements, hjoints.trans ?_⟩
  simp only [lacking, mem_uncovered, and_assoc]

/-- What one automaton lacked is nothing to another. -/
theorem lacking_union {a b : Automaton} (hne : b.name ≠ a.name)
    (joints : Set (String × (String → Option String))) :
    lacking (joints ∪ lacking joints a) b = lacking joints b := by
  have hsame : ∀ action, (∃ k ∈ joints ∪ lacking joints a, k.2 b.name = some action) ↔
      ∃ k ∈ joints, k.2 b.name = some action := by
    intro action
    refine ⟨?_, fun ⟨k, hk, haction⟩ => ⟨k, .inl hk, haction⟩⟩
    rintro ⟨k, hk | ⟨other, -, -, rfl⟩, haction⟩
    · exact ⟨k, hk, haction⟩
    · simp [together, hne] at haction
  ext j
  exact exists_congr fun action => and_congr_right fun _ => and_congr_left fun _ =>
    not_congr (hsame action)

/-- **Completing a composition adds the joints that its automata lack**, each for itself. -/
theorem joints_coverAll (automata : List Automaton) (hn : (automata.map (·.name)).Nodup)
    (helements : ∀ a ∈ automata, a.name ∈ c.elements) :
    ∃ c', automata.foldlM cover c = .ok c' ∧ c'.elements = c.elements ∧
      c'.joints = c.joints ∪ {j | ∃ a ∈ automata, j ∈ lacking c.joints a} := by
  induction automata generalizing c with
  | nil => exact ⟨c, rfl, rfl, by simp⟩
  | cons a automata ih =>
    rw [List.map_cons, List.nodup_cons] at hn
    rw [List.forall_mem_cons] at helements
    obtain ⟨c₁, hc₁, helements₁, hjoints₁⟩ := joints_cover helements.1
    obtain ⟨c', hc', helements', hjoints'⟩ := ih (c := c₁) hn.2 (helements₁ ▸ helements.2)
    refine ⟨c', ?_, helements'.trans helements₁, ?_⟩
    · rw [List.foldlM_cons, Result.bind_eq_ok]
      exact ⟨c₁, hc₁, hc'⟩
    · have hothers : ∀ b ∈ automata, lacking c₁.joints b = lacking c.joints b := fun b hb =>
        hjoints₁ ▸ lacking_union (fun heq => hn.1 (heq ▸ List.mem_map_of_mem hb)) c.joints
      rw [hjoints', hjoints₁, Set.union_assoc]
      congr 1
      ext j
      rw [← hjoints₁]
      simp only [Set.mem_union, Set.mem_ofPred_eq, List.mem_cons, exists_eq_or_imp]
      exact or_congr_right (exists_congr fun b => and_congr_right fun hb => by rw [hothers b hb])

/-! ### The same in any order -/

/-- Events that are alike can be added to the same elements in any order, with the same joints. -/
theorem addEvents_alike (c c' : Composition) {live live' : List Event}
    (halike : List.Forall₂ Event.Alike live live') (hperm : c'.elements.Perm c.elements)
    (hjoints : c.joints = c'.joints) (hn : (c.elements ++ live.map (·.name)).Nodup)
    (hmembers : ∀ e ∈ live, ∀ role, ∀ x ∈ (e.members role).map (·.1), x ∈ c.elements)
    {d : Composition} (h : live.foldlM addEvent c = .ok d) :
    ∃ d', live'.foldlM addEvent c' = .ok d' ∧ d'.elements.Perm d.elements ∧
      d.joints = d'.joints := by
  have hnames := Event.map_eq_of_alike halike Event.Alike.name
  have hall := hperm.append_right (live.map (·.name))
  have hmembers' : ∀ e' ∈ live', ∀ role, ∀ x ∈ (e'.members role).map (·.1), x ∈ c'.elements := by
    intro e' he' role x hx
    obtain ⟨e, he, halike⟩ := exists_of_mem_forall₂ halike he'
    exact hperm.mem_iff.2 (hmembers e he role x ((halike.members role x).2 hx))
  obtain ⟨d₁, hd₁, helements₁, hjoints₁⟩ := joints_addEvents live hn hmembers
  obtain rfl := Except.ok.inj (h.symm.trans hd₁)
  obtain ⟨d', hd', helements', hjoints'⟩ := joints_addEvents (c := c') live'
    (hnames ▸ hall.nodup_iff.2 hn) hmembers'
  refine ⟨d', hd', by rwa [helements', helements₁, ← hnames], ?_⟩
  have hsets := Event.map_eq_of_alike halike Event.Alike.joints
  have hall : ∀ j, (∃ e ∈ live, j ∈ e.joints) ↔ ∃ e ∈ live', j ∈ e.joints := fun j => by
    simpa using (congrArg (fun sets => ∃ s ∈ sets, j ∈ s) hsets).to_iff
  simp only [hjoints₁, hjoints', hjoints, hall]

/-- Automata can be covered in any order, with the same joints. -/
theorem coverAll_perm {automata automata' : List Automaton} (hautomata : automata'.Perm automata)
    (hn : (automata.map (·.name)).Nodup) (helements : ∀ a ∈ automata, a.name ∈ c.elements)
    (hperm : c'.elements.Perm c.elements) {d : Composition}
    (h : automata.foldlM cover c = .ok d) :
    d.elements = c.elements ∧ ∃ d', automata'.foldlM cover c' = .ok d' ∧
      d'.elements = c'.elements ∧ (c.joints = c'.joints → d.joints = d'.joints) := by
  obtain ⟨d₁, hd₁, helements₁, hjoints₁⟩ := joints_coverAll automata hn helements
  obtain rfl := Except.ok.inj (h.symm.trans hd₁)
  obtain ⟨d', hd', helements', hjoints'⟩ := joints_coverAll (c := c') automata'
    ((hautomata.map _).nodup_iff.2 hn)
    fun a ha => hperm.mem_iff.2 (helements a (hautomata.mem_iff.1 ha))
  refine ⟨helements₁, d', hd', helements', fun hjoints => ?_⟩
  rw [hjoints₁, hjoints', hjoints]
  simp only [hautomata.mem_iff]

end Composition

end ChartNet
