import ChartNet.Proofs.Network.Charted
import ChartNet.Proofs.Order.Charts
import ChartNet.Proofs.Order.Vectors

/-!
# Charts that are compiled alone

The charts of a model are compiled one after the other in one registry of events. If all events that
they name are declared, each of them gives what it gives **alone**, in the declared events
themselves. So charts can be added exactly if each compiles alone and their names are distinct
(`alone_of_addCharts`, `addCharts_of_alone`), which does not depend on their order; nor does who is
registered in the end, and so the events are alike one by one (`Events.forall₂_alike`).
-/

namespace ChartNet

/-! ### Registering charts -/

namespace Events

variable {es ds : Events}

theorem registers_iff_of_mem (hn : es.names.Nodup) {e : Event} (he : e ∈ es.all) {role : Role}
    {x : String} : es.Registers role e.name x ↔ x ∈ (e.members role).map (·.1) := by
  refine ⟨?_, fun hx => ⟨e, get?_of_mem hn he, hx⟩⟩
  rintro ⟨e', he', hx⟩
  rwa [Option.some.inj ((get?_of_mem hn he).symm.trans he')]

/-- Registries with the same bare events and the same registrations have events that are alike. -/
theorem forall₂_alike (hn : es.names.Nodup) (hbare : es.bare = ds.bare)
    (hregisters : ∀ role event x, es.Registers role event x ↔ ds.Registers role event x) :
    List.Forall₂ Event.Alike es.all ds.all := by
  have hn' : ds.names.Nodup := by rwa [← names_bare, ← hbare, names_bare]
  have hevents : List.Forall₂ (fun e e' : Event => e.bare = e'.bare) es.all ds.all := by
    rw [← List.forall₂_map_right_iff (f := Event.bare),
      ← List.forall₂_map_left_iff (f := Event.bare), List.forall₂_eq_eq_eq]
    exact congrArg Events.all hbare
  rw [List.forall₂_iff_zip] at hevents ⊢
  refine ⟨hevents.1, fun {e e'} hmem => ⟨hevents.2 hmem, fun role x => ?_⟩⟩
  have hname : e.name = e'.name := congrArg (·.name) (hevents.2 hmem)
  rw [← registers_iff_of_mem hn (List.of_mem_zip hmem).1, hregisters, hname,
    registers_iff_of_mem hn' (List.of_mem_zip hmem).2]

end Events

namespace Descriptor

/-- What a chart registers alone are registrations of its own automaton. -/
private theorem mem_names_of_alone {setting : Setting} {b es es₁ alone : Events} {c : Chart}
    {a a' : Automaton} {m : Model} (hbare : b.bare = b)
    (hmembers : ∀ role event x, es.Registers role event x → x ∈ m.names) (hname : a.name = c.name)
    (halone : (c.compile setting).Yields b a' alone)
    (hregisters : ∀ role event x,
      es₁.Registers role event x ↔ es.Registers role event x ∨ alone.Registers role event x) :
    ∀ role event x, es₁.Registers role event x →
      x ∈ ({ m with automata := m.automata ++ [a] } : Model).names := by
  intro role event x hx
  simp only [Model.names, List.map_append, List.map_cons, List.map_nil, hname, List.mem_append,
    List.mem_singleton]
  refine ((hregisters role event x).1 hx).imp (hmembers _ _ _) fun hx => ?_
  exact ((Chart.compile_parts halone).1.added hx).resolve_left (Events.not_registers_of_bare hbare)

section Alone

variable {setting : Setting} {b : Events} (hn : b.names.Nodup) (hbare : b.bare = b)

include hn hbare

/-- Charts of declared events that are added one after the other compile **alone**, and have
distinct names. -/
theorem alone_of_addCharts (cs : List Chart) (hcs : ∀ c ∈ cs, c.Closed b) {es es' : Events}
    {m m' : Model} (hes : es.bare = b)
    (hmembers : ∀ role event x, es.Registers role event x → x ∈ m.names)
    (h : (addCharts setting es cs).Yields m es' m') :
    (∀ c ∈ cs, ∃ o : Automaton × Events, (c.compile setting).Yields b o.1 o.2) ∧
      (cs.map (·.name)).Nodup ∧ ∀ c ∈ cs, c.name ∉ m.names := by
  induction cs generalizing es m with
  | nil => simp
  | cons c cs ih =>
    rw [List.forall_mem_cons] at hcs
    obtain ⟨a, es₁, hcompile, hnew, hrest⟩ := yields_addCharts_cons.1 h
    have hname := (Chart.compile_parts hcompile).2.1
    rw [hname] at hnew
    obtain ⟨alone, halone, hes₁, hregisters⟩ := Chart.compile_alone hn hcs.1 hbare hes
      (fun role event hr => hnew (hmembers _ _ _ hr)) hcompile
    have hmembers₁ := mem_names_of_alone hbare hmembers hname halone hregisters
    obtain ⟨hothers, hnodup, hnew'⟩ := ih hcs.2 hes₁ hmembers₁ hrest
    simp only [Model.names, List.map_append, List.map_cons, List.map_nil, hname, List.mem_append,
      List.mem_singleton, not_or] at hnew'
    refine ⟨List.forall_mem_cons.2 ⟨⟨(a, alone), halone⟩, hothers⟩, ?_, ?_⟩
    · refine List.nodup_cons.2 ⟨fun hmem => ?_, hnodup⟩
      obtain ⟨c', hc', heq⟩ := List.mem_map.1 hmem
      exact (hnew' c' hc').2 heq
    · exact List.forall_mem_cons.2 ⟨hnew, fun c' hc' => (hnew' c' hc').1⟩

/-- **Charts that compile alone can be added in any order**: each brings its automaton and what it
registers. -/
theorem addCharts_of_alone (cs : List Chart) (hcs : ∀ c ∈ cs, c.Closed b)
    (alone : Chart → Automaton × Events)
    (halone : ∀ c ∈ cs, (c.compile setting).Yields b (alone c).1 (alone c).2) {es : Events}
    {m : Model} (hes : es.bare = b)
    (hmembers : ∀ role event x, es.Registers role event x → x ∈ m.names)
    (hnodup : (cs.map (·.name)).Nodup) (hnew : ∀ c ∈ cs, c.name ∉ m.names) :
    ∃ es', (addCharts setting es cs).Yields m es'
        { m with automata := m.automata ++ cs.map fun c => (alone c).1 } ∧
      es'.bare = b ∧ ∀ role event x, es'.Registers role event x ↔
        es.Registers role event x ∨ ∃ c ∈ cs, (alone c).2.Registers role event x := by
  induction cs generalizing es m with
  | nil => exact ⟨es, by simp [addCharts], hes, by simp⟩
  | cons c cs ih =>
    rw [List.forall_mem_cons] at hcs halone hnew
    rw [List.map_cons, List.nodup_cons] at hnodup
    have hname := (Chart.compile_parts halone.1).2.1
    obtain ⟨es₁, hcompile⟩ := Chart.exists_compile_of_alone hn hcs.1 hbare hes
      (fun role event hr => hnew.1 (hmembers _ _ _ hr)) halone.1
    obtain ⟨alone', halone', hes₁, hregisters⟩ := Chart.compile_alone hn hcs.1 hbare hes
      (fun role event hr => hnew.1 (hmembers _ _ _ hr)) hcompile
    obtain ⟨-, rfl⟩ := halone'.unique halone.1
    have hmembers₁ := mem_names_of_alone hbare hmembers hname halone.1 hregisters
    obtain ⟨es', hrest, hes', hregisters'⟩ := ih hcs.2 halone.2 hes₁ hmembers₁ hnodup.2 (by
      intro c' hc'
      simp only [Model.names, List.map_append, List.map_cons, List.map_nil, hname, List.mem_append,
        List.mem_singleton, not_or]
      exact ⟨hnew.2 c' hc', fun heq => hnodup.1 (heq ▸ List.mem_map_of_mem hc')⟩)
    refine ⟨es', yields_addCharts_cons.2 ⟨_, es₁, hcompile, hname ▸ hnew.1, ?_⟩, hes', ?_⟩
    · simpa using hrest
    · intro role event x
      rw [hregisters', hregisters, List.exists_mem_cons_iff, or_assoc]

end Alone

/-! ### Declared events of a descriptor -/

/-- The declared events are bare, and all of them are declared. -/
theorem declares_declaredEvents {d : Descriptor} {es : Events} (h : d.declaredEvents = .ok es) :
    es.bare = es ∧ ∀ event ∈ d.events.map (·.name), es.Declares event := by
  have hfold : ∀ (ds : List EventDecl) {es es' : Events},
      ds.foldlM (fun es e => do es.declare e.name (← fieldTypes d.capacity e)) es = .ok es' →
      (∀ event, es.Declares event → es'.Declares event) ∧
        ∀ event ∈ ds.map (·.name), es'.Declares event := by
    intro ds
    induction ds with
    | nil =>
      rintro es es' ⟨⟩
      exact ⟨fun _ => id, by simp⟩
    | cons decl ds ih =>
      intro es es' h
      rw [List.foldlM_cons, Result.bind_eq_ok] at h
      obtain ⟨es₁, hdeclare, hrest⟩ := h
      obtain ⟨fields, -, hdeclare⟩ := Result.bind_eq_ok.1 hdeclare
      obtain ⟨hnew, rfl⟩ := Events.declare_eq_ok.1 hdeclare
      obtain ⟨hkept, hothers⟩ := ih hrest
      rw [Events.get?] at hnew
      refine ⟨fun event hevent => hkept event ?_, List.forall_mem_cons.2 ⟨hkept _ ?_, hothers⟩⟩
      · obtain ⟨e, he, hdeclared⟩ := hevent
        refine ⟨e, ?_, hdeclared⟩
        rw [Events.get?] at he
        simp [Events.get?, he]
      · exact ⟨Event.declare decl.name fields, by simp [Events.get?, hnew, Event.declare], rfl⟩
  refine ⟨?_, (hfold d.events h).2⟩
  -- an event for which nobody is registered is bare
  have hbare : es.all.map (·.bare) = es.all := by
    conv_rhs => rw [← List.map_id es.all]
    refine List.map_congr_left fun e he => ?_
    have hnone := (declaredEvents_spec h).2 e he
    obtain ⟨name, declared, fields, senders, receivers⟩ := e
    obtain rfl : senders = [] := hnone .sender
    obtain rfl : receivers = [] := hnone .receiver
    rfl
  rw [Events.bare, hbare]

end Descriptor

end ChartNet
