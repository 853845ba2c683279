import ChartNet.Proofs.Chart.Notes
import ChartNet.Proofs.Network.Stages
import ChartNet.Proofs.Network.Targets

/-!
# Values that fit their fields

A field of an event gets its type from the values that are sent in it, chart by chart, and is real
as soon as ints and reals have met. In the model its variable admits every type that a value had
**when it was sent**: a later chart can only widen it.

The type of a value that forwards another field is read off the events that are registered at that
moment. If that field widens later, the value has another type in the model, and nobody looks at it
again. So a field admits the types that its values have in the model if all that they read had its
final type when they were sent (`Descriptor.compile_admits`).
-/

namespace ChartNet

/-! ### Types of values -/

/-- Only the types of the names in an expression count for its type. -/
theorem Expr.infer_congr {σ τ : TypeLookup} {e : Expr} (h : ∀ x ∈ e.occurrences, σ x = τ x) :
    e.infer σ = e.infer τ := by
  induction e with
  | ident x => simp [infer, h x (by simp [occurrences])]
  | lit _ | uniform _ _ | array _ => rfl
  | unary op a iha => simp only [infer, iha h]
  | binary op a b iha ihb =>
    simp only [occurrences, List.forall_mem_append] at h
    simp only [infer, iha h.1, ihb h.2]
  | ternary op a b c _ ihb ihc =>
    simp only [occurrences, List.forall_mem_append] at h
    simp only [infer, ihb h.1.2, ihc h.2]
  | quaternary op a b c d => rfl

/-- In a model with distinct globals a variable gives its name its type. -/
theorem Model.typeOf_of_mem {m : Model} (hm : m.globals.Nodup) {v : Variable} (hv : v ∈ m.vars) :
    m.typeOf v.name = some v.type := by
  have hvars : (m.vars.map (·.name)).Nodup := (List.nodup_append.1 hm).1
  obtain ⟨w, hw⟩ : ∃ w, m.getVariable? v.name = some w := by
    rw [← Option.isSome_iff_exists, getVariable?, List.find?_isSome]
    exact ⟨v, hv, by simp⟩
  have hname : w.name = v.name := by simpa using List.find?_some hw
  obtain rfl := List.inj_on_of_nodup_map hvars (List.mem_of_find?_eq_some hw) hv hname
  simp [typeOf, hw]

/-! ### Charts -/

namespace Chart

variable {c : Chart} {setting : Setting} {es es' : Events} {a : Automaton}

theorem widens_compile (h : (c.compile setting).Yields es a es') : es.Widens es' :=
  BodyScope.widens_noteAll _ (noteAll_of_compile h)

/-- A value that a chart notes was given a type when the notes before it were registered, and the
event that it is sent with has a field that admits this type when the chart is compiled. -/
theorem exists_field_of_compile (h : (c.compile setting).Yields es a es')
    {earlier later : List Note} {reads : Option String} {event : String} {p : Param}
    (hnotes : c.notes setting.constants = earlier ++ .value reads event p :: later) :
    ∃ es₁ source given field, ((setting.scope a).noteAll earlier).Yields es () es₁ ∧
      Source.read p.expr = .ok source ∧
      ((setting.scope a).reading reads).payloadType es₁ source = .ok given ∧
      es'.fieldType? event p.name = some field ∧ field.Admits given ∧
      es'.Registers .sender event a.name := by
  have hall := noteAll_of_compile h
  have hnoted : .value reads event p ∈ c.notes setting.constants := by simp [hnotes]
  have hsent := BodyScope.registers_of_mem _ (send_mem_notes hnoted) hall
  rw [hnotes] at hall
  obtain ⟨es₁, hearlier, hrest⟩ := BodyScope.yields_noteAll_append.1 hall
  obtain ⟨es₂, hvalue, hlater⟩ := BodyScope.yields_noteAll_cons.1 hrest
  obtain ⟨source, given, type, hsource, hgiven, hrecord⟩ := BodyScope.yields_note_value.1 hvalue
  obtain ⟨-, t, ht, hadmits⟩ := EventM.widens_recordField hrecord
  obtain ⟨field, hfield, hwider⟩ := (BodyScope.widens_noteAll later hlater).fields ht
  exact ⟨es₁, source, given, field, hearlier, hsource, hgiven, hfield, hwider.trans hadmits, hsent⟩

end Chart

namespace Descriptor

variable {setting : Setting} {es es' : Events} {m m' : Model}

theorem yields_addCharts_append {cs cs' : List Chart} :
    (addCharts setting es (cs ++ cs')).Yields m es' m' ↔
      ∃ es₁ m₁, (addCharts setting es cs).Yields m es₁ m₁ ∧
        (addCharts setting es₁ cs').Yields m₁ es' m' := by
  induction cs generalizing es m with
  | nil => simp [addCharts]
  | cons c cs ih =>
    simp only [List.cons_append, yields_addCharts_cons, ih]
    constructor
    · rintro ⟨a, es₁, hcompile, hnew, es₂, m₂, hcs, hcs'⟩
      exact ⟨es₂, m₂, ⟨a, es₁, hcompile, hnew, hcs⟩, hcs'⟩
    · rintro ⟨es₂, m₂, ⟨a, es₁, hcompile, hnew, hcs⟩, hcs'⟩
      exact ⟨a, es₁, hcompile, hnew, es₂, m₂, hcs, hcs'⟩

/-- Adding charts widens events, and keeps the automata that are there. -/
theorem widens_addCharts (cs : List Chart) (h : (addCharts setting es cs).Yields m es' m') :
    es.Widens es' ∧ ∀ a ∈ m.automata, a ∈ m'.automata := by
  induction cs generalizing es m with
  | nil =>
    obtain ⟨rfl, rfl⟩ := Build.yields_pure.1 h
    exact ⟨.refl _, fun _ => id⟩
  | cons c cs ih =>
    obtain ⟨a, es₁, hcompile, -, hrest⟩ := yields_addCharts_cons.1 h
    obtain ⟨hwidens, hkept⟩ := ih hrest
    exact ⟨(Chart.widens_compile hcompile).trans hwidens, fun b hb => hkept b (by simp [hb])⟩

/-! ### Compiled descriptors -/

variable {d : Descriptor} {charts : Charts} {json : Json}

/-- A field of an event that somebody sends has its type as a variable of the model. -/
theorem typeOf_connect (h : (d.connect es).Yields m () m') (hm' : m'.globals.Nodup)
    {event field automaton : String} {t : DataType} (hfield : es.fieldType? event field = some t)
    (hsent : es.Registers .sender event automaton) :
    m'.typeOf (event ++ "." ++ field) = some t := by
  obtain ⟨e, he, htype⟩ := Events.fieldType?_eq_some.1 hfield
  have hsenders : e.hasSenders = true := by
    obtain ⟨e', he', hx⟩ := hsent
    obtain rfl := Option.some.inj (he.symm.trans he')
    cases hlist : e.senders with
    | nil => simp [Event.members, hlist] at hx
    | cons _ _ => simp [Event.hasSenders, hlist]
  obtain ⟨vs, hvs, hmem⟩ := (buildsOn_connect h).2 e (Events.mem_of_get? he) hsenders
  obtain ⟨v, hv, hname, rfl⟩ := Event.exists_of_vars hvs htype
  rw [← Events.name_of_get? he, ← hname]
  exact Model.typeOf_of_mem hm' (hmem v hv)

/-- An automaton of a chart keeps its name and its variables when charts are connected. -/
theorem exists_automaton_connect (hm : m.names.Nodup) (h : (d.connect es).Yields m () m')
    {a : Automaton} (ha : a ∈ m.automata) :
    ∃ a' ∈ m'.automata, a'.name = a.name ∧ a'.vars = a.vars := by
  obtain ⟨buffers, hexpanded⟩ := automata_connect hm h
  have hmem : a.without (unsentActions es.all) ∈
      m.automata.map (·.without (unsentActions es.all)) ++ buffers.map (·.buffer) :=
    List.mem_append_left _ (List.mem_map_of_mem ha)
  obtain ⟨a', ha', hexpand⟩ := exists_of_mem_forall₂ hexpanded.flip hmem
  refine ⟨a', ha', (Automaton.expandDraws_ok hexpand.draws).1, ?_⟩
  rw [Automaton.vars_of_expandDraws hexpand.draws, Automaton.vars_without]

/-- **A field admits every type that was sent in it.** Each value that a chart notes was sent at
some moment of the compilation, when the charts before it and the earlier notes of its own were
registered. The variable of its field admits the type that the value had at that moment. If all
names in the value had the types then that they have in the model, it also admits the type that the
value has in the model. -/
theorem compile_admits (h : d.compile charts = .ok (m, json))
    {before after : List Chart} {c : Chart}
    (hcharts : d.charts.mapM (chartOf charts) = .ok (before ++ c :: after)) :
    ∃ (m₀ m₁ : Model) (es₀ es₁ : Events) (a : Automaton) (s : BodyScope),
      d.declareGlobals.Yields d.start () m₀ ∧ d.declaredEvents = .ok es₀ ∧
      (addCharts (d.setting m₀) es₀ before).Yields m₀ es₁ m₁ ∧
      a ∈ m.automata ∧ a.name = c.name ∧ s = (d.setting m₀).scope a ∧
      ∀ earlier reads event p later,
        c.notes m₀.constantValues = earlier ++ .value reads event p :: later →
        ∃ es source given field, (s.noteAll earlier).Yields es₁ () es ∧
          Source.read p.expr = .ok source ∧
          (s.reading reads).payloadType es source = .ok given ∧
          m.typeOf (event ++ "." ++ p.name) = some field ∧ field.Admits given ∧
          ∀ e t, source.meaning = .plain e →
            (∀ x ∈ (e.withEvent reads).occurrences,
              (s.scope es).types x = ((d.setting m).scope a).vars x) →
            (e.withEvent reads).infer ((d.setting m).scope a).vars = .ok (some t) →
            field.Admits t := by
  obtain ⟨es', m₂, hregister, hconnect⟩ := yields_of_compile h
  obtain ⟨m₀, es₀, found, hglobals, hes₀, hfound, hadd⟩ := yields_declareGlobals.1 hregister
  obtain rfl := Except.ok.inj (hfound.symm.trans hcharts)
  obtain ⟨es₁, m₁, hbefore, hrest⟩ := yields_addCharts_append.1 hadd
  obtain ⟨a₀, es₂, hcompile, -, hafter⟩ := yields_addCharts_cons.1 hrest
  -- charts that are added later widen the fields further
  obtain ⟨hwidens, hkept⟩ := widens_addCharts after hafter
  obtain ⟨a, ha, hname, hvars⟩ :=
    exists_automaton_connect (charted_register hregister).nodup hconnect
    (hkept a₀ (by simp))
  have hscope : (d.setting m₀).scope a = (d.setting m₀).scope a₀ :=
    Chart.scope_congr hname hvars none
  refine ⟨m₀, m₁, es₀, es₁, a, _, hglobals, hes₀, hbefore, ha,
    hname.trans (Chart.compile_parts hcompile).2.1, rfl,
      fun earlier reads event p later hnotes => ?_⟩
  obtain ⟨es, source, given, t, hearlier, hsource, hgiven, ht, hadmits, hsent⟩ :=
    Chart.exists_field_of_compile hcompile hnotes
  obtain ⟨field, hfield, hwider⟩ := hwidens.fields ht
  have hadmits' := hwider.trans hadmits
  rw [← hscope] at hearlier hgiven
  refine ⟨es, source, given, field, hearlier, hsource, hgiven,
    typeOf_connect hconnect (nodup_globals_of_compile h) hfield (hwidens.kept hsent), hadmits', ?_⟩
  intro e type hplain hfinal htype
  obtain ⟨type', htype', hform, hbase⟩ := BodyScope.payloadType_of_plain hplain hgiven
  -- what the value reads has its final type already, so its own type is final
  have hsame : type' = type := by
    rw [← Expr.infer_congr hfinal] at htype
    exact Option.some.inj (Except.ok.inj (htype'.symm.trans htype))
  exact hadmits'.congr (hsame ▸ hform) (hsame ▸ hbase)

/-- A chart that forwards a real value after the chart that sends it: the field admits the value. -/
theorem compile_admits_of_forwarded :
    let sender : Chart :=
      { name := "sender", initial := "start"
        states := [{ id := "start"
                     onEntry := some [.send "ping" (some [{ name := "f", expr := "1.5" }])] }] }
    let value : Param := { name := "g", expr := "_event.data.f" }
    let forwarder : Chart :=
      { name := "forwarder", initial := "start"
        states := [{ id := "start"
                     transitions := some
                       [{ event := some "ping"
                          goal := .single "start" (some [.send "pong" (some [value])]) }] }] }
    let d : Descriptor :=
      { name := "network", capacity := .whole 1, randomOptions := .whole 1
        charts := [.inline sender, .inline forwarder] }
    ∃ m json field, d.compile = .ok (m, json) ∧ m.typeOf "ping.f" = some .real ∧
      m.typeOf "pong.g" = some field ∧ field.Admits .real := by
  intro sender value forwarder d
  obtain ⟨⟨m, json⟩, hcompile, hcheck⟩ := Result.exists_of_any (x := d.compile)
    (p := fun r => decide (r.1.typeOf "ping.f" = some .real ∧ ∀ a ∈ r.1.automata, a.vars = []))
    (by decide +kernel)
  obtain ⟨hping, hvars⟩ := of_decide_eq_true hcheck
  have hcharts : d.charts.mapM (chartOf []) = .ok ([sender] ++ forwarder :: []) := rfl
  obtain ⟨m₀, m₁, es₀, es₁, a, s, hglobals, hes₀, hbefore, ha, hname, rfl, hall⟩ :=
    compile_admits hcompile hcharts
  obtain ⟨-, rfl⟩ := hglobals.unique (rfl : d.declareGlobals.Yields d.start () d.start)
  obtain rfl : {} = es₀ := Except.ok.inj hes₀
  obtain ⟨es, source, given, field, hearlier, hsource, -, hfield, -, hadmits⟩ :=
    hall [.receive "ping" "ping_on_receive", .announce "pong"] (some "ping") "pong" value
      [.send "pong"]
      (by decide +kernel)
  -- the field that is forwarded has its final type when the second chart is compiled
  obtain ⟨es₁', hes₁', hregistered⟩ := Result.exists_of_any
    (x := ((addCharts (d.setting d.start) {} [sender]).run.run d.start).1)
    (p := fun es => decide (((es.addReceiver "ping" "forwarder" "ping_on_receive").ensure
      "pong").variableType? "ping.f" = some .real)) (by decide +kernel)
  obtain rfl : es₁ = es₁' := Except.ok.inj ((congrArg Prod.fst hbefore).symm.trans hes₁')
  simp only [BodyScope.yields_noteAll_cons, BodyScope.yields_noteAll_nil, BodyScope.note,
    Build.yields_modify] at hearlier
  obtain ⟨_, rfl, _, rfl, rfl⟩ := hearlier
  have hown : a.getVariable? "ping.f" = none := by simp [Automaton.getVariable?, hvars a ha]
  have hfinal : ((d.setting m).scope a).vars "ping.f" = some .real := by
    simp [Setting.scope, Descriptor.setting, hown, hping]
  have hevent : (Expr.ident "_event.data.f").withEvent (some "ping") = .ident "ping.f" := by decide
  have hread : Source.read value.expr = .ok ⟨value.expr, .plain (.ident "_event.data.f")⟩ :=
    Result.eq_ok_of_toOption (by decide +kernel)
  obtain rfl := Except.ok.inj (hsource.symm.trans hread)
  refine ⟨m, json, field, hcompile, hping, hfield, hadmits (.ident "_event.data.f") .real rfl ?_ ?_⟩
  · rw [hevent, Expr.occurrences, List.forall_mem_singleton, hfinal]
    simp only [BodyScope.scope, Setting.scope, hown, hname]
    exact of_decide_eq_true hregistered
  · rw [hevent, Expr.infer, hfinal]

/-- A field stays int if the one that it forwards becomes real only in a later chart. -/
example :
    let sender (name value : String) : Chart :=
      { name, initial := "start"
        states := [{ id := "start"
                     onEntry := some [.send "ping" (some [{ name := "f", expr := value }])] }] }
    let forwarder : Chart :=
      { name := "forwarder", initial := "start"
        states := [{ id := "start"
                     transitions := some
                       [{ event := some "ping"
                          goal := .single "start" (some
                            [.send "pong"
                              (some [{ name := "g", expr := "_event.data.f" }])]) }] }] }
    let d : Descriptor :=
      { name := "network", capacity := .whole 1, randomOptions := .whole 1
        charts := [.inline (sender "first" "1"), .inline forwarder, .inline (sender "last" "1.5")] }
    ((d.register []).run.run d.start).1.toOption.map
      (fun es => (es.fieldType? "ping" "f", es.fieldType? "pong" "g")) =
        some (some .real, some .int) := by
  decide +kernel

end Descriptor

end ChartNet
