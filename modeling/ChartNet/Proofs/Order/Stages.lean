import ChartNet.Proofs.Order.Vectors

/-!
# Stages in any order

What happens to a model after its charts were compiled is the same whatever the order of its
automata. Two lists of automata that are those of the same charts in two orders are `Reordered`.
Each stage keeps them so, succeeds for one if it does for the other, and adds the same variables,
buffers and joints (`Descriptor.connect_perm`).
-/

namespace ChartNet

/-! ### Automata in another order -/

/-- Two lists of automata are those of the same charts in two **orders**: each entry has one
automaton, of the name of its chart, wherever it stands, and the same others follow. -/
def Reordered (charts : Charts) (entries entries' : List ChartEntry)
    (as as' : List Automaton) : Prop :=
  ∃ (automaton : ChartEntry → Automaton) (others : List Automaton),
    (∀ entry ∈ entries, ∀ c, Descriptor.chartOf charts entry = .ok c →
      (automaton entry).name = c.name) ∧
    as = entries.map automaton ++ others ∧ as' = entries'.map automaton ++ others

/-- The automaton with its draws expanded, if they can be. -/
def Automaton.expanded (n : Size) (a : Automaton) : Automaton :=
  (a.expandDraws n).toOption.getD a

theorem Automaton.name_expanded (n : Size) (a : Automaton) : (a.expanded n).name = a.name := by
  unfold expanded
  cases h : a.expandDraws n with
  | error _ => rfl
  | ok a' => exact (expandDraws_ok h).1

/-- Automata expand one by one, each to one automaton. -/
theorem forall₂_expandsTo_iff {n : Size} {as bs : List Automaton} :
    List.Forall₂ (Automaton.ExpandsTo n) as bs ↔
      (∀ a ∈ as, a.ExpandsTo n (a.expanded n)) ∧ bs = as.map (·.expanded n) := by
  have hone {a a' : Automaton} : a.ExpandsTo n a' ↔
    a.ExpandsTo n (a.expanded n) ∧ a' = a.expanded n := by
    constructor
    · intro h
      have heq : a' = a.expanded n := by simp [Automaton.expanded, h.draws, Except.toOption]
      exact ⟨heq ▸ h, heq⟩
    · rintro ⟨h, rfl⟩
      exact h
  induction as generalizing bs with
  | nil => simp
  | cons a as ih =>
    simp only [List.forall₂_cons_left_iff, ih, List.forall_mem_cons, List.map_cons]
    constructor
    · rintro ⟨a', _, ha, ⟨has, rfl⟩, rfl⟩
      obtain ⟨ha, rfl⟩ := hone.1 ha
      exact ⟨⟨ha, has⟩, rfl⟩
    · rintro ⟨⟨ha, has⟩, rfl⟩
      exact ⟨_, _, ha, ⟨has, rfl⟩, rfl⟩

namespace Reordered

variable {charts : Charts} {entries entries' : List ChartEntry} {as as' : List Automaton}

theorem perm (h : Reordered charts entries entries' as as') (hperm : entries'.Perm entries) :
    as'.Perm as := by
  obtain ⟨automaton, others, -, rfl, rfl⟩ := h
  exact (hperm.map automaton).append_right others

theorem map (h : Reordered charts entries entries' as as') {f : Automaton → Automaton}
    (hf : ∀ a, (f a).name = a.name) : Reordered charts entries entries' (as.map f) (as'.map f) := by
  obtain ⟨automaton, others, hnames, rfl, rfl⟩ := h
  exact ⟨f ∘ automaton, others.map f,
    fun entry hentry c hc => (hf _).trans (hnames entry hentry c hc), by simp, by simp⟩

theorem append (h : Reordered charts entries entries' as as') (bs : List Automaton) :
    Reordered charts entries entries' (as ++ bs) (as' ++ bs) := by
  obtain ⟨automaton, others, hnames, rfl, rfl⟩ := h
  exact ⟨automaton, others ++ bs, hnames, by simp, by simp⟩

end Reordered

/-! ### The stages after the charts -/

theorem Model.checkElements_eq_ok {m : Model} {c : Composition} :
    m.checkElements c = .ok () ↔ ∀ x, x ∈ m.names ↔ x ∈ c.elements := by
  have hcheck : m.checkElements c = .ok () ↔
      (∀ x ∈ m.names, x ∈ c.elements) ∧ ∀ x ∈ c.elements, x ∈ m.names := by
    unfold checkElements
    simp only [List.isEmpty_iff, Bool.and_eq_true, List.filter_eq_nil_iff, Bool.not_eq_true',
      List.contains_eq_mem, decide_eq_false_iff_not, not_not]
    split
    · rename_i h
      exact iff_of_true rfl h
    · rename_i h
      exact iff_of_false (by simp [failModel]) h
  rw [hcheck]
  constructor
  · rintro ⟨h, h'⟩ x
    exact ⟨h x, h' x⟩
  · exact fun h => ⟨fun x => (h x).1, fun x => (h x).2⟩

namespace Descriptor

section Stages

variable {d : Descriptor} {charts : Charts} {entries entries' : List ChartEntry} {m m₁ : Model}
  {as' : List Automaton} (hperm : entries'.Perm entries)
  (hm : Reordered charts entries entries' m.automata as')

include hm

omit hperm in
/-- Events that are alike are live together, with the same variables. -/
theorem declareEvents_perm {es ds : Events} (halike : List.Forall₂ Event.Alike es.all ds.all)
    {live : List Event} (h : (Model.declareEvents es).Yields m live m₁) :
    live = es.all.filter (·.hasSenders) ∧ m₁.names = m.names ∧ ∃ live' as₁,
      (Model.declareEvents ds).Yields { m with automata := as' } live' { m₁ with automata := as₁ } ∧
      List.Forall₂ Event.Alike live live' ∧ Reordered charts entries entries' m₁.automata as₁ := by
  obtain ⟨hremovable, rfl, vss, hvss, hvars⟩ := yields_declareEvents.1 h
  obtain ⟨hnew, rfl⟩ := (Model.yields_addVariables _).1 hvars
  have hlive := Event.filter_alike (p := (·.hasSenders)) halike Event.Alike.hasSenders
  have hunsent := Event.unsentActions_of_alike halike
  refine ⟨rfl, by simp [Model.names, Model.withVars, Model.without, Function.comp_def], _,
    as'.map (·.without (unsentActions es.all)), yields_declareEvents.2
      ⟨?_, rfl, vss, Event.mapM_vars_of_alike hlive ▸ hvss, ?_⟩,
    hlive, hm.map (Automaton.name_without (unsentActions es.all))⟩
  · intro e' he'
    obtain ⟨e, he, h⟩ := exists_of_mem_forall₂ halike he'
    rw [← h.hasSenders, ← h.hasReceivers, ← h.isRemovable]
    exact hremovable e he
  · rw [← hunsent]
    exact (Model.yields_addVariables _).2 ⟨hnew, rfl⟩

include hperm

theorem compose_perm {live live' : List Event} (halike : List.Forall₂ Event.Alike live live')
    (hn : m.names.Nodup) (hmembers : ∀ e ∈ live, ∀ role, ∀ x ∈ (e.members role).map (·.1),
      x ∈ m.names)
    {c : Composition} (h : (d.compose live).Yields m c m₁) :
    m₁.names.Nodup ∧ ∃ c' as₁, (d.compose live').Yields { m with automata := as' } c'
        { m₁ with automata := as₁ } ∧
      Reordered charts entries entries' m₁.automata as₁ ∧ c'.elements.Perm c.elements ∧
      (d.composition = none → c.joints = c'.joints) := by
  have hnames : ({ m with automata := as' } : Model).names.Perm m.names := (hm.perm hperm).map _
  unfold compose at h ⊢
  cases hcomposition : d.composition with
  | some l =>
    simp only [hcomposition, Build.yields_ofResult] at h ⊢
    obtain ⟨hc, rfl⟩ := h
    exact ⟨hn, c, as', ⟨hc, rfl⟩, hm, .refl _, by simp⟩
  | none =>
    simp only [hcomposition, Model.yields_composeEvents] at h ⊢
    obtain ⟨⟨hnodup, hc⟩, rfl⟩ := h
    have hnames' : ∀ m : Model, (m.withBuffers live').names = m.names ++ live.map (·.name) :=
      fun m => by
      rw [Model.names_withBuffers, Event.map_eq_of_alike halike Event.Alike.name]
    obtain ⟨c', hc', helements, hjoints⟩ := Composition.addEvents_alike
      { elements := m.names } { elements := ({ m with automata := as' } : Model).names }
        halike hnames rfl
      (Model.names_withBuffers live m ▸ hnodup) hmembers hc
    refine ⟨hnodup, c', as' ++ live.map (·.buffer), ⟨⟨?_, hc'⟩, ?_⟩, hm.append _, helements,
      fun _ => hjoints⟩
    · rw [hnames', (hnames.append_right _).nodup_iff, ← Model.names_withBuffers]
      exact hnodup
    · rw [Event.map_eq_of_alike halike Event.Alike.buffer]
      rfl

theorem setComposition_perm (hn : m.names.Nodup) {c c' : Composition}
    (helements : c'.elements.Perm c.elements) (h : (Model.setComposition c).Yields m () m₁) :
    ∃ k k', m₁ = { m with composition := some k } ∧
      (Model.setComposition c').Yields { m with automata := as' } ()
        { m with automata := as', composition := some k' } ∧
      k'.elements.Perm k.elements ∧ (∀ a ∈ m.automata, a.name ∈ k.elements) ∧
      (c.joints = c'.joints → k.joints = k'.joints) := by
  obtain ⟨hcheck, k, hk, rfl⟩ := Model.yields_setComposition.1 h
  have hnames : ({ m with automata := as' } : Model).names.Perm m.names := (hm.perm hperm).map _
  rw [Model.checkElements_eq_ok] at hcheck
  have hmem : ∀ a ∈ m.automata, a.name ∈ c.elements := fun a ha =>
    (hcheck _).1 (List.mem_map_of_mem ha)
  obtain ⟨hkept, k', hk', hkept', hjoints⟩ :=
    Composition.coverAll_perm (hm.perm hperm) hn hmem helements hk
  refine ⟨k, k', rfl, Model.yields_setComposition.2 ⟨?_, k', hk', rfl⟩, by rwa [hkept, hkept'],
    hkept ▸ hmem, hjoints⟩
  rw [Model.checkElements_eq_ok]
  exact fun x => (hnames.mem_iff.trans (hcheck x)).trans helements.mem_iff.symm

theorem expandDraws_perm (hn : m.names.Nodup) {n : Size} {c c' : Composition}
    (helements : c'.elements.Perm c.elements) (hmem : ∀ a ∈ m.automata, a.name ∈ c.elements)
    (h : (Model.expandDraws n).Yields { m with composition := some c } () m₁) :
    ∃ as₁ as₁' k k', m₁ = { m with automata := as₁, composition := some k } ∧
      (Model.expandDraws n).Yields { m with automata := as', composition := some c' } ()
        { m with automata := as₁', composition := some k' } ∧
      Reordered charts entries entries' as₁ as₁' ∧
      (c.joints = c'.joints → k.joints = k'.joints) := by
  obtain ⟨hinits, as₁, hexpanded, k, hk, rfl⟩ :=
    (Model.yields_expandDraws_iff (m := { m with composition := some c })
    rfl hn).1 h
  obtain ⟨heach, rfl⟩ := forall₂_expandsTo_iff.1 hexpanded
  have hreordered := hm.map (Automaton.name_expanded n)
  have hnames : (m.automata.map (·.expanded n)).map (·.name) = m.names := by
    simp [Model.names, Automaton.name_expanded, Function.comp_def]
  have hmem' : ∀ a ∈ m.automata.map (·.expanded n), a.name ∈ c.elements := by
    rw [List.forall_mem_map]
    exact fun a ha => a.name_expanded n ▸ hmem a ha
  obtain ⟨-, k', hk', -, hjoints⟩ := Composition.coverAll_perm (hreordered.perm hperm)
    (hnames ▸ hn) hmem' helements hk
  have hn' : ({ m with automata := as', composition := some c' } : Model).names.Nodup :=
    ((hm.perm hperm).map _).nodup_iff.2 hn
  refine ⟨_, as'.map (·.expanded n), k, k', rfl, (Model.yields_expandDraws_iff rfl hn').2
    ⟨hinits, _, forall₂_expandsTo_iff.2 ⟨fun a ha => ?_, rfl⟩, k', hk', rfl⟩, hreordered, hjoints⟩
  exact heach a ((hm.perm hperm).mem_iff.1 ha)

/-- **The stages after the charts succeed in one order if they do in the other**, with the same
variables and automata, and with the same joints if the composition comes from the events. -/
theorem connect_perm {es ds : Events} (halike : List.Forall₂ Event.Alike es.all ds.all)
    (hn : m.names.Nodup) (hmembers : ∀ e ∈ es.all, ∀ role, ∀ x ∈ (e.members role).map (·.1),
      x ∈ m.names)
    (h : (d.connect es).Yields m () m₁) :
    ∃ as₁' k k', m₁.composition = some k ∧
      (d.connect ds).Yields { m with automata := as' } ()
        { m₁ with automata := as₁', composition := some k' } ∧
      Reordered charts entries entries' m₁.automata as₁' ∧
      (d.composition = none → k.joints = k'.joints) := by
  obtain ⟨live, m₂, c, m₃, m₄, m₅, hdeclare, hcompose, hset, hexpand, hproperties⟩ :=
    yields_connect.1 h
  obtain ⟨rfl, hnames, live', as₂, hdeclare', hlive, hm₂⟩ := declareEvents_perm hm halike hdeclare
  obtain ⟨hn₃, c', as₃, hcompose', hm₃, helements, hjoints⟩ := compose_perm hperm hm₂ hlive
    (hnames ▸ hn) (fun e he => hnames ▸ hmembers e (List.mem_filter.1 he).1) hcompose
  obtain ⟨k, k', rfl, hset', helements', hmem, hjoints'⟩ :=
    setComposition_perm hperm hm₃ hn₃ helements hset
  obtain ⟨as₄, as₄', l, l', rfl, hexpand', hm₄, hjoints''⟩ :=
    expandDraws_perm hperm hm₃ hn₃ helements' hmem hexpand
  obtain ⟨ps, hps, hnew, rfl⟩ := (Model.yields_addProperties _).1 hproperties
  exact ⟨as₄', l, l', rfl, yields_connect.2 ⟨live', _, c', _, _, _, hdeclare', hcompose', hset',
      hexpand', (Model.yields_addProperties _).2 ⟨ps, hps, hnew, rfl⟩⟩, hm₄,
    fun hnone => hjoints'' (hjoints' (hjoints hnone))⟩

end Stages

end Descriptor

end ChartNet
