import Mathlib
import ChartNet.Model.Delivery
import ChartNet.Proofs.Build
import ChartNet.Proofs.Registry

/-!
# Vectors of events

The synchronisations by which an event is delivered: one per sender, in which the sender and the
buffer take part, and one in which the buffer and all receivers take part. Participants are kept as
lists of named values in the order that objects have, so the first section says that this order
changes nothing.
-/

namespace ChartNet

/-! ### Participants -/

/-- The order of the members of an object is some order of them. -/
theorem Json.perm_arrange {α : Type} (members : List (String × α)) :
    (arrange members).Perm members := by
  have hindexed : (members.filterMap fun m => (index? m.1).map (·, m)).map (·.2) =
      members.filter fun m => !(index? m.1).isNone := by
    induction members with
    | nil => rfl
    | cons m ms ih => cases h : index? m.1 <;> simp [h, ih]
  have hsorted := (List.mergeSort_perm (members.filterMap fun m => (index? m.1).map (·, m))
    fun a b => decide (a.1 ≤ b.1)).map (·.2)
  rw [hindexed] at hsorted
  simp only [arrange]
  refine (hsorted.append_right _).trans (List.perm_append_comm.trans ?_)
  apply List.filter_append_perm

private theorem assocPut_const {α : Type} {pairs : List (String × α)} {value : α}
    (h : ∀ p ∈ pairs, p.2 = value) (name : String) :
    assocPut pairs name value =
      if name ∈ pairs.map (·.1) then pairs else pairs ++ [(name, value)] := by
  have hany : pairs.any (·.1 == name) = decide (name ∈ pairs.map (·.1)) := by
    rw [Bool.eq_iff_iff]
    simp
  have hmap : (pairs.map fun p => if p.1 == name then (name, value) else p) = pairs := by
    conv_rhs => rw [← List.map_id pairs]
    refine List.map_congr_left fun p hp => ?_
    by_cases hname : p.1 = name
    · simp only [hname, beq_self_eq_true, if_true, id]
      exact Prod.ext hname.symm (h p hp).symm
    · simp [hname]
  rw [assocPut, hany, hmap]
  simp only [decide_eq_true_eq]

/-- Names with one value for all are kept, each once. -/
theorem assocOfList_const {α : Type} (names : List String) (value : α) :
    (∀ p, p ∈ assocOfList (names.map (·, value)) ↔ p.1 ∈ names ∧ p.2 = value) ∧
      ((assocOfList (names.map (·, value))).map (·.1)).Nodup := by
  -- a name that comes again changes nothing, as its value is the same
  have hfold : ∀ (names : List String) (pairs : List (String × α)),
      (∀ p ∈ pairs, p.2 = value) → (pairs.map (·.1)).Nodup →
      (∀ p, p ∈ (names.map (·, value)).foldl (fun ps p => assocPut ps p.1 p.2) pairs ↔
        p ∈ pairs ∨ p.1 ∈ names ∧ p.2 = value) ∧
      (((names.map (·, value)).foldl (fun ps p => assocPut ps p.1 p.2) pairs).map (·.1)).Nodup := by
    intro names
    induction names with
    | nil => simp +contextual
    | cons name names ih =>
      intro pairs hvalue hnodup
      rw [List.map_cons, List.foldl_cons, assocPut_const hvalue]
      split
      · rename_i hname
        obtain ⟨q, hq, hqname⟩ := List.mem_map.1 hname
        obtain ⟨hmem, hkeys⟩ := ih pairs hvalue hnodup
        refine ⟨fun p => (hmem p).trans ?_, hkeys⟩
        have hold : p.1 = name → p.2 = value → p ∈ pairs := fun h₁ h₂ => by
          have hp : p = q := Prod.ext (h₁.trans hqname.symm) (h₂.trans (hvalue q hq).symm)
          exact hp ▸ hq
        simp only [List.mem_cons]
        tauto
      · rename_i hname
        have hvalue' : ∀ p ∈ pairs ++ [(name, value)], p.2 = value := by
          simpa [or_imp, forall_and] using fun x y h => hvalue (x, y) h
        have hnodup' : ((pairs ++ [(name, value)]).map (·.1)).Nodup := by
          simpa using hnodup.concat hname
        obtain ⟨hmem, hkeys⟩ := ih _ hvalue' hnodup'
        refine ⟨fun p => (hmem p).trans ?_, hkeys⟩
        simp only [List.mem_append, List.mem_cons, List.not_mem_nil, Prod.ext_iff]
        tauto
  obtain ⟨hmem, hnodup⟩ := hfold names [] (by simp) (by simp)
  exact ⟨fun p => (hmem p).trans (by simp), hnodup⟩

/-- A synchronisation **joins** automata by an action: they take part in it, each once. -/
structure Sync.Joins (s : Sync) (names : List String) (action : String) : Prop where
  mem : ∀ p, p ∈ s.participants ↔ p.1 ∈ names ∧ p.2 = action
  nodup : (s.participants.map (·.1)).Nodup

theorem Sync.joins_arrange (result : String) (names : List String) (action : String) :
    Sync.Joins { result, participants := Json.arrange (assocOfList (names.map (·, action))) }
      names action := by
  obtain ⟨hmem, hnodup⟩ := assocOfList_const names action
  have hperm := Json.perm_arrange (assocOfList (names.map (·, action)))
  exact ⟨fun p => hperm.mem_iff.trans (hmem p), (hperm.map _).nodup_iff.2 hnodup⟩

/-- Who takes part in a synchronisation does so by its action. -/
theorem Sync.Joins.get {s : Sync} {names : List String} {action x : String}
    (h : s.Joins names action) (hx : x ∈ names) : assocGet? s.participants x = some action := by
  have hmem : (x, action) ∈ s.participants := (h.mem _).2 ⟨hx, rfl⟩
  unfold assocGet?
  cases hfind : s.participants.find? (·.1 == x) with
  | none => exact absurd hmem fun hmem => by simpa using List.find?_eq_none.1 hfind _ hmem
  | some p => simp [((h.mem p).1 (List.mem_of_find?_eq_some hfind)).2]

/-! ### Adding the synchronisations of an event -/

/-- The **vectors** of an event. -/
def Event.vectors (e : Event) : List Sync :=
  let send := sendAction e.name
  let receive := receiveAction e.name
  e.senders.map (fun sender =>
    { result := send
      participants := Json.arrange (assocOfList [(e.name, send), (sender.1, send)]) }) ++
  if e.hasReceivers then
    [{ result := receive
       participants := Json.arrange (assocOfList
        ((e.name, receive) :: e.receivers.map fun r => (r.1, receive))) }]
  else []

/-- A vector of an event joins its buffer with one sender, or with all receivers. -/
theorem Event.joins_of_mem_vectors {e : Event} {s : Sync} (h : s ∈ e.vectors) :
    (∃ x ∈ (e.members .sender).map (·.1), s.Joins [e.name, x] (Role.sender.action e.name)) ∨
      s.Joins (e.name :: (e.members .receiver).map (·.1)) (Role.receiver.action e.name) := by
  rcases List.mem_append.1 h with h | h
  · obtain ⟨sender, hsender, rfl⟩ := List.mem_map.1 h
    exact .inl ⟨sender.1, List.mem_map_of_mem hsender, Sync.joins_arrange _ [e.name, sender.1] _⟩
  · split at h
    · obtain rfl := List.mem_singleton.1 h
      have hjoins := Sync.joins_arrange (receiveAction e.name)
        (e.name :: e.receivers.map (·.1)) (receiveAction e.name)
      rw [List.map_cons, List.map_map] at hjoins
      exact .inr hjoins
    · simp at h

/-- Each automaton that an event has in a role takes part in a vector, and so does the buffer. -/
theorem Event.exists_vector {e : Event} {role : Role} {x : String}
    (hx : x ∈ (e.members role).map (·.1)) :
    ∃ s ∈ e.vectors, ∃ names, e.name ∈ names ∧ x ∈ names ∧ s.Joins names (role.action e.name) := by
  obtain ⟨p, hp, rfl⟩ := List.mem_map.1 hx
  cases role with
  | sender =>
    refine ⟨_, List.mem_append_left _ (List.mem_map_of_mem hp), [e.name, p.1], by simp, by simp, ?_⟩
    exact Sync.joins_arrange _ [e.name, p.1] _
  | receiver =>
    have hreceivers : e.hasReceivers = true := by
      have hne : e.receivers ≠ [] := List.ne_nil_of_mem hp
      simpa [hasReceivers] using hne
    have hjoins := Sync.joins_arrange (receiveAction e.name)
      (e.name :: e.receivers.map (·.1)) (receiveAction e.name)
    rw [List.map_cons, List.map_map] at hjoins
    refine ⟨_, List.mem_append_right _ ?_, e.name :: e.receivers.map (·.1), by simp, ?_, hjoins⟩
    · rw [if_pos hreceivers]
      exact List.mem_singleton.2 rfl
    · exact List.mem_cons_of_mem _ hx

namespace Composition

theorem addElement_ok {c c' : Composition} {automaton : String}
    (h : c.addElement automaton = .ok c') :
    automaton ∉ c.elements ∧ c' = { c with elements := c.elements ++ [automaton] } := by
  unfold addElement at h
  split at h
  · cases h
  · rename_i hnew
    exact ⟨hnew, (Except.ok.inj h).symm⟩

theorem addSync_ok {c c' : Composition} {result : String} {participants : List (String × String)}
    (h : c.addSync result participants = .ok c') :
    c' = { c with syncs := c.syncs ++
      [{ result, participants := Json.arrange (assocOfList participants) }] } := by
  simp only [addSync] at h
  split at h
  · cases h
  · split at h
    · cases h
    · exact (Except.ok.inj h).symm

/-- The composition with an event has its vectors. -/
theorem addEvent_ok {c c' : Composition} {e : Event} (h : c.addEvent e = .ok c') :
    e.name ∉ c.elements ∧ c'.elements = c.elements ++ [e.name] ∧
      c'.syncs = c.syncs ++ e.vectors := by
  simp only [addEvent, Result.bind_eq_ok] at h
  obtain ⟨c₁, helement, c₂, hsenders, hreceivers⟩ := h
  obtain ⟨hnew, rfl⟩ := addElement_ok helement
  have hfold : ∀ (senders : List (String × String)) {c c' : Composition},
      senders.foldlM (fun c sender => c.addSync (sendAction e.name)
        [(e.name, sendAction e.name), (sender.1, sendAction e.name)]) c = .ok c' →
      c' = { c with syncs := c.syncs ++ senders.map fun sender =>
        { result := sendAction e.name
          participants := Json.arrange (assocOfList
            [(e.name, sendAction e.name), (sender.1, sendAction e.name)]) } } := by
    intro senders
    induction senders with
    | nil =>
      rintro c c' ⟨⟩
      simp
    | cons sender senders ih =>
      intro c c' h
      rw [List.foldlM_cons, Result.bind_eq_ok] at h
      obtain ⟨c₁, hfirst, hrest⟩ := h
      rw [ih hrest, addSync_ok hfirst]
      simp
  rw [hfold _ hsenders] at hreceivers
  split at hreceivers
  · rename_i hreceive
    rw [addSync_ok hreceivers]
    exact ⟨hnew, rfl, by simp [Event.vectors, hreceive]⟩
  · rename_i hreceive
    cases hreceivers
    exact ⟨hnew, rfl, by simp [Event.vectors, hreceive]⟩

end Composition

end ChartNet
