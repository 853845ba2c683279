import ChartNet.Proofs.History.Compositions

/-!
# What completing adds to a composition

Completing a composition gives every action of an automaton that takes part in no synchronisation
one of its own. The synchronisations that are there stay, in their order, and exactly the missing
ones come behind them, each once (`Model.completeComposition_adds`). An action is missing at an
automaton, so automata that share the name of an action get a synchronisation each; and what was
added for one automaton changes nothing for another, although it is in the composition by then.
-/

namespace ChartNet

/-- The synchronisation of an automaton **alone**, by an action. -/
def Sync.alone (automaton action : String) : Sync := ⟨action, [(automaton, action)]⟩

theorem Sync.alone_inj {x x' action action' : String} :
    alone x action = alone x' action' ↔ x = x' ∧ action = action' := by
  simp only [alone, Sync.mk.injEq, List.cons.injEq, Prod.mk.injEq]
  tauto

theorem Sync.assocGet?_alone {x y action other : String} :
    assocGet? (alone x action).participants y = some other ↔ y = x ∧ other = action := by
  by_cases h : x = y
  · simp [assocGet?, alone, h, eq_comm (a := action)]
  · simp [assocGet?, alone, h, Ne.symm h]

theorem Automaton.mem_actions {a : Automaton} {action : String} :
    action ∈ a.actions ↔ ∃ e ∈ a.edges, e.action = some action := by
  simp only [actions, List.mem_eraseDups, List.mem_filterMap]

namespace Composition

variable {c : Composition}

theorem has_iff {x action : String} :
    c.Has x action ↔ ∃ s ∈ c.syncs, assocGet? s.participants x = some action := by
  simp [Has, joints, Sync.joint]

/-- The composition with more synchronisations behind its own. -/
def append (c : Composition) (added : List Sync) :
    Composition := { c with syncs := c.syncs ++ added }

theorem append_nil (c : Composition) : c.append [] = c := by
  simp only [append, List.append_nil]

theorem append_append (added added' : List Sync) :
    (c.append added).append added' = c.append (added ++ added') := by
  simp only [append, List.append_assoc]

/-- Who takes part in a longer composition did so before, or takes part in what was added. -/
theorem has_append {added : List Sync} {x action : String} :
    (c.append added).Has x action ↔
      c.Has x action ∨ ∃ s ∈ added, assocGet? s.participants x = some action := by
  simp only [has_iff, append, List.mem_append, or_and_right, exists_or]

theorem addSync_alone {x : String} (hx : x ∈ c.elements) (action : String) :
    c.addSync action [(x, action)] = .ok (c.append [.alone x action]) := by
  have hperm := Json.perm_arrange (assocOfList [(x, action)])
  have harrange : Json.arrange (assocOfList [(x, action)]) = [(x, action)] :=
    List.perm_singleton.1 hperm
  simp [addSync, harrange, hx, append, Sync.alone]

/-- The synchronisations that an automaton **lacks**: one for each action by which it does not take
part, in their order. -/
def lacked (c : Composition) (a : Automaton) : List Sync :=
  (Model.uncovered c a).map (Sync.alone a.name)

variable {a b : Automaton} {s : Sync}

theorem mem_lacked :
    s ∈ c.lacked a ↔ ∃ action ∈ a.actions, ¬ c.Has a.name action ∧ s = .alone a.name action := by
  simp only [lacked, List.mem_map, mem_uncovered, Has, and_assoc, eq_comm]

theorem nodup_lacked (c : Composition) (a : Automaton) : (c.lacked a).Nodup := by
  refine List.Nodup.map (fun x y h => (Sync.alone_inj.1 h).2) ?_
  exact (nodup_eraseDups _).filter _

/-- **Covering** an automaton adds what it lacks. -/
theorem cover_eq (ha : a.name ∈ c.elements) : c.cover a = .ok (c.append (c.lacked a)) := by
  suffices hfold : ∀ (actions : List String) (c : Composition), a.name ∈ c.elements →
      actions.foldlM (fun c action => c.addSync action [(a.name, action)]) c =
        .ok (c.append (actions.map (Sync.alone a.name))) from hfold _ c ha
  intro actions
  induction actions with
  | nil =>
    intro c _
    rw [List.map_nil, append_nil]
    rfl
  | cons action actions ih =>
    intro c hc
    have hrest := ih (c.append [.alone a.name action]) hc
    rw [append_append] at hrest
    rw [List.foldlM_cons, Result.bind_eq_ok]
    exact ⟨_, addSync_alone hc action, hrest⟩

/-- With what an automaton lacks it takes part by all its actions; for others nothing changes. -/
theorem has_append_lacked {x action : String} :
    (c.append (c.lacked a)).Has x action ↔ c.Has x action ∨ x = a.name ∧ action ∈ a.actions := by
  rw [has_append]
  constructor
  · rintro (hhas | ⟨s, hs, hget⟩)
    · exact .inl hhas
    · obtain ⟨other, hother, -, rfl⟩ := mem_lacked.1 hs
      obtain ⟨rfl, rfl⟩ := Sync.assocGet?_alone.1 hget
      exact .inr ⟨rfl, hother⟩
  · rintro (hhas | ⟨rfl, haction⟩)
    · exact .inl hhas
    · by_cases hhas : c.Has a.name action
      · exact .inl hhas
      · exact .inr ⟨_, mem_lacked.2 ⟨action, haction, hhas, rfl⟩, Sync.assocGet?_alone.2 ⟨rfl, rfl⟩⟩

/-- After one automaton another lacks what it lacked before, except for what was just added. -/
theorem mem_lacked_append_lacked :
    s ∈ (c.append (c.lacked a)).lacked b ↔ s ∈ c.lacked b ∧ s ∉ c.lacked a := by
  simp only [mem_lacked, has_append_lacked, not_or, not_and, not_exists]
  constructor
  · rintro ⟨action, haction, ⟨hhas, hother⟩, rfl⟩
    refine ⟨⟨action, haction, hhas, rfl⟩, fun action' haction' _ heq => ?_⟩
    obtain ⟨hname, rfl⟩ := Sync.alone_inj.1 heq
    exact hother hname haction'
  · rintro ⟨⟨action, haction, hhas, rfl⟩, hnew⟩
    refine ⟨action, haction, ⟨hhas, fun hname haction' => ?_⟩, rfl⟩
    exact hnew action haction' (hname ▸ hhas) (by rw [hname])

/-- **Exactly what some automata lack is added, each once.** -/
theorem exists_coverAll (automata : List Automaton) (hc : ∀ a ∈ automata, a.name ∈ c.elements) :
    ∃ added, automata.foldlM cover c = .ok (c.append added) ∧ added.Nodup ∧
      ∀ s, s ∈ added ↔ ∃ a ∈ automata, s ∈ c.lacked a := by
  induction automata generalizing c with
  | nil => exact ⟨[], by rw [append_nil]; rfl, List.nodup_nil, by simp⟩
  | cons a automata ih =>
    rw [List.forall_mem_cons] at hc
    obtain ⟨rest, hrest, hnodup, hmem⟩ := ih (c := c.append (c.lacked a)) hc.2
    simp only [mem_lacked_append_lacked] at hmem
    refine ⟨c.lacked a ++ rest, ?_, ?_, fun s => ?_⟩
    · rw [List.foldlM_cons, Result.bind_eq_ok]
      exact ⟨_, cover_eq hc.1, by rw [hrest, append_append]⟩
    · refine List.nodup_append.2 ⟨nodup_lacked c a, hnodup, ?_⟩
      rintro s hs _ hs' rfl
      obtain ⟨b, -, -, hnew⟩ := (hmem s).1 hs'
      exact hnew hs
    · rw [List.mem_append, hmem, List.exists_mem_cons_iff]
      by_cases hs : s ∈ c.lacked a <;> simp [hs]

end Composition

namespace Model

variable {m : Model} {c : Composition}

/-- **Completing adds exactly what is missing.** If the composition of a model lists its automata,
it can be completed. All synchronisations stay, and behind them comes one, each once, for every
automaton and every action on its edges by which it does not take part in any, of the automaton
alone. Then all automata take part by all actions, and completing again changes nothing. Automata
with an action of one name get two synchronisations. -/
theorem completeComposition_adds (hc : m.composition = some c)
    (helements : ∀ a ∈ m.automata, a.name ∈ c.elements) :
    ∃ (added : List Sync) (c' : Composition) (m' : Model),
      c' = { c with syncs := c.syncs ++ added } ∧ m' = { m with composition := some c' } ∧
      completeComposition.Yields m () m' ∧ completeComposition.Yields m' () m' ∧
      added.Nodup ∧
      (∀ s, s ∈ added ↔ ∃ a ∈ m.automata, ∃ e ∈ a.edges, ∃ action, e.action = some action ∧
        ¬ c.Has a.name action ∧ s = .alone a.name action) ∧
      (∀ a ∈ m'.automata, ∀ e ∈ a.edges, ∀ action, e.action = some action → c'.Has a.name action) ∧
      ∀ a ∈ m.automata, ∀ b ∈ m.automata, a.name ≠ b.name →
        ∀ action ∈ a.actions, action ∈ b.actions → ¬ c.Has a.name action → ¬ c.Has b.name action →
        ∃ i j : Nat, i ≠ j ∧ added[i]? = some (.alone a.name action) ∧
          added[j]? = some (.alone b.name action) := by
  obtain ⟨added, hadded, hnodup, hmem⟩ := Composition.exists_coverAll m.automata helements
  have hyields : completeComposition.Yields m () { m with composition := some (c.append added) } :=
    (yields_completeComposition hc).2 ⟨_, hadded, rfl⟩
  have hhas : ∀ a ∈ m.automata, ∀ action ∈ a.actions, (c.append added).Has a.name action :=
    fun a ha action haction => covered_of_yields hyields (fun _ => True) _ rfl a ha (helements a ha)
      action haction trivial
  refine ⟨added, c.append added, _, rfl, rfl, hyields, ?_, hnodup, fun s => ?_, ?_, ?_⟩
  · -- Nothing is missing any more.
    obtain ⟨again, hagain, -, hmem'⟩ :=
      Composition.exists_coverAll (c := c.append added) m.automata helements
    have hnone : again = [] := by
      refine List.eq_nil_iff_forall_not_mem.2 fun s hs => ?_
      obtain ⟨a, ha, hlacked⟩ := (hmem' s).1 hs
      obtain ⟨action, haction, hnot, -⟩ := Composition.mem_lacked.1 hlacked
      exact hnot (hhas a ha action haction)
    refine (yields_completeComposition rfl).2 ⟨_, hagain, ?_⟩
    rw [hnone, Composition.append_nil]
  · rw [hmem]
    refine exists_congr fun a => and_congr_right fun _ => ?_
    simp only [Composition.mem_lacked, Automaton.mem_actions]
    tauto
  · exact fun a ha e he action haction =>
      hhas a ha action (Automaton.mem_actions.2 ⟨e, he, haction⟩)
  · intro a ha b hb hne action haction haction' hnot hnot'
    have hfirst := (hmem _).2 ⟨a, ha, Composition.mem_lacked.2 ⟨action, haction, hnot, rfl⟩⟩
    have hsecond := (hmem _).2 ⟨b, hb, Composition.mem_lacked.2 ⟨action, haction', hnot', rfl⟩⟩
    obtain ⟨i, hi⟩ := List.getElem?_of_mem hfirst
    obtain ⟨j, hj⟩ := List.getElem?_of_mem hsecond
    refine ⟨i, j, ?_, hi, hj⟩
    rintro rfl
    exact hne (Sync.alone_inj.1 (Option.some.inj (hi.symm.trans hj))).1

/-- Two automata share an action, of which only the first one has a synchronisation with another. -/
theorem completeComposition_adds_of_shared :
    ∃ (m : Model) (c : Composition) (added : List Sync) (m' : Model),
    m.composition = some c ∧ (∀ a ∈ m.automata, a.name ∈ c.elements) ∧
      completeComposition.Yields m () m' ∧
      m'.composition = some { c with syncs := c.syncs ++ added } ∧
      (.alone "right" "step" : Sync) ∈ added ∧ (.alone "right" "turn" : Sync) ∈ added ∧
      (.alone "left" "turn" : Sync) ∈ added ∧ (.alone "left" "step" : Sync) ∉ added := by
  let edges : List Edge :=
    [{ location := "idle", action := some "step", destinations := [] },
      { location := "idle", action := some "turn", destinations := [] }]
  let c : Composition := { elements := ["left", "right"], syncs := [⟨"go", [("left", "step")]⟩] }
  let m : Model :=
    { name := "network", composition := some c
      automata := [{ name := "left", edges }, { name := "right", edges }] }
  have helements : ∀ a ∈ m.automata, a.name ∈ c.elements := by simp [m, c]
  obtain ⟨added, _, m', rfl, rfl, hyields, -, -, hmem, -⟩ := completeComposition_adds rfl helements
  refine ⟨m, c, added, _, rfl, helements, hyields, rfl, ?_⟩
  simp [hmem, m, c, edges, Composition.has_iff, Sync.alone_inj, assocGet?]

end Model

end ChartNet
