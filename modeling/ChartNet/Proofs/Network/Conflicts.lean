import ChartNet.Proofs.Body.Conflicts
import ChartNet.Proofs.Chart.Bodies
import ChartNet.Proofs.Network.Payload
import ChartNet.Proofs.Network.Targets
import ChartNet.Proofs.Order.Vectors
import Mathlib.Data.List.NodupEquivFin

/-!
# Conflicts in a network

Assignments that happen at the same time have **different targets** in a compiled model, unless one
send gives a value to the same field twice (`Descriptor.compile_conflicts`). In a chart only the
assignments of one send can conflict. They are to the variables of the fields of the event, and
these are declared with the model, where a name is declared once: a field whose name is that of the
length of another, or that of `valid`, is refused. Expanding random values only takes assignments
apart.
-/

namespace ChartNet

/-! ### Conflicts of charts -/

namespace Chart

/-- Assignments are a **payload** of an event in a chart: those of a send in one of its bodies. -/
def IsPayload (c : Chart) (setting : Setting) (event : String) (params : List Param)
    (payload : List Assignment) : Prop :=
  ∃ p ∈ c.sites setting.constants, (event, params) ∈ sendsAmong p.steps ∧
    ∃ a, (setting.scope a p.event).IsPayload event params payload

/-- Two assignments on an edge **belong to one send** of a chart, whose payload events lay out. -/
def Joint (c : Chart) (setting : Setting) (es : Events) (e : Edge) (x y : Assignment) : Prop :=
  ∃ event params payload, e.action = some (sendAction event) ∧
    c.IsPayload setting event params payload ∧ es.LaysOut event params payload ∧
    [x, y].Sublist payload

/-- **A compiled chart conflicts only within one send.** -/
theorem compile_joint {c : Chart} {setting : Setting} {es es' : Events} {a : Automaton}
    (hn : es.names.Nodup) (h : (c.compile setting).Yields es a es') :
    ∀ e ∈ a.edges, e.ConflictsOnly (c.Joint setting es' e) := by
  intro e he
  rcases compile_written hn h e he with ⟨body, ⟨p, hp, a₀, es₀, es₁, hn₀, hbody, hlater⟩,
    hedge⟩ | hheads
  · obtain ⟨hgrows, hjoint⟩ := BodyScope.steps_jointOnly p.steps hn₀ hbody
    refine (hjoint e hedge).mono fun x y => ?_
    rintro ⟨event, params, payload, haction, hsends, hpayload, hlaid, hsub⟩
    exact ⟨event, params, payload, haction, ⟨p, hp, hsends, a₀, hpayload⟩,
      hlaid.mono (hgrows.nodup hn₀) hlater, hsub⟩
  · intro d hd
    rcases hheads d hd with hnone | ⟨body, ⟨p, -, a₀, es₀, es₁, -, hbody, -⟩, rfl⟩
    · rw [hnone]
      exact List.Pairwise.nil
    · exact BodyScope.conflictsOnly_of_steps p.steps hbody List.Pairwise.nil

end Chart

/-- Every automaton that charts add was compiled with events that have only **grown** since. -/
theorem Descriptor.grown_addCharts {setting : Setting} (cs : List Chart) {es es' : Events}
    {m m' : Model} (hn : es.names.Nodup) (h : (addCharts setting es cs).Yields m es' m') :
    es.Grows es' ∧ ∀ a ∈ m'.automata, a ∈ m.automata ∨
      ∃ c ∈ cs, ∃ es₀ es₁, es₀.names.Nodup ∧ (c.compile setting).Yields es₀ a es₁ ∧
        es₁.Grows es' := by
  induction cs generalizing es m with
  | nil =>
    obtain ⟨rfl, rfl⟩ := yields_addCharts_nil.1 h
    exact ⟨.refl _, fun a ha => .inl ha⟩
  | cons c cs ih =>
    obtain ⟨a, es₁, hcompile, -, hrest⟩ := yields_addCharts_cons.1 h
    obtain ⟨hgrows, -⟩ := Chart.compile_known hn hcompile
    obtain ⟨hgrows', hcompiled⟩ := ih (hgrows.nodup hn) hrest
    refine ⟨hgrows.trans hgrows', fun b hb => ?_⟩
    rcases hcompiled b hb with hb | ⟨c', hc', hcompiled⟩
    · rcases List.mem_append.1 hb with hb | hb
      · exact .inl hb
      · obtain rfl := List.mem_singleton.1 hb
        exact .inr ⟨c, List.mem_cons_self, es, es₁, hn, hcompile, hgrows'⟩
    · exact .inr ⟨c', List.mem_cons_of_mem _ hc', hcompiled⟩

/-! ### Conflicts of a send -/

namespace Event

variable {e : Event} {vs : List Variable}

/-- The **names** of the variables of an event. -/
theorem map_name_vars (h : e.vars = .ok vs) :
    vs.map (·.name) =
      (e.name ++ ".valid") :: e.fields.flatMap fun f => f.2.names (e.name ++ "." ++ f.1) := by
  rw [map_name_of_vars h, parts, List.map_cons, List.map_flatMap, String.append_assoc]
  simp only [DataType.names_append]
  rfl

/-- The names of a field are those of an entry of the event. -/
theorem exists_of_mem_fieldNames {field x : String} (h : x ∈ e.fieldNames field) :
    ∃ f ∈ e.fields, f.1 = field ∧ x ∈ f.2.names (e.name ++ "." ++ f.1) := by
  cases htype : e.fieldType? field with
  | none => simp [fieldNames, htype] at h
  | some t =>
    rw [fieldNames_of_fieldType? htype] at h
    exact ⟨_, mem_of_fieldType? htype, rfl, h⟩

/-- If the variables of an event have distinct names, those of **different fields** have different
ones. -/
theorem field_of_mem_fieldNames (hn : ((e.fields.flatMap fun f =>
      f.2.names (e.name ++ "." ++ f.1))).Nodup) {field field' x : String}
    (h : x ∈ e.fieldNames field) (h' : x ∈ e.fieldNames field') : field = field' := by
  obtain ⟨f, hf, rfl, hx⟩ := exists_of_mem_fieldNames h
  obtain ⟨f', hf', rfl, hx'⟩ := exists_of_mem_fieldNames h'
  exact congrArg Prod.fst (eq_of_mem_flatMap hn hf hf' hx hx')

/-- **A send assigns to a name twice** only if it gives two values to one field. -/
theorem pairwise_sentNames (h : e.vars = .ok vs) (hn : (vs.map (·.name)).Nodup)
    (params : List Param) : (e.sentNames params).Pairwise fun x y =>
      x = y → ∃ field, (params.map (·.name)).Duplicate field ∧ x ∈ e.fieldNames field := by
  rw [map_name_vars h, List.nodup_cons] at hn
  obtain ⟨hvalid, hfields⟩ := hn
  refine List.pairwise_append.2 ⟨List.pairwise_flatMap.2 ⟨fun p _ => ?_, ?_⟩,
    List.pairwise_singleton _ _, fun x hx y hy heq => ?_⟩
  · -- one value goes to different variables
    have hnames : (e.fieldNames p.name).Nodup := by
      unfold fieldNames
      split
      · exact DataType.nodup_names _ _
      · exact List.nodup_nil
    exact hnames.imp fun hne heq => absurd heq hne
  · -- two values go to the same variable only if they are of one field
    refine List.pairwise_iff_getElem.2 fun i j hi hj hij x hx y hy heq => ?_
    subst heq
    refine ⟨params[i].name, ?_, hx⟩
    refine List.duplicate_iff_exists_distinct_get.2 ⟨⟨i, by simpa using hi⟩, ⟨j, by simpa using hj⟩,
      hij, by simp, ?_⟩
    simpa using field_of_mem_fieldNames hfields hx hy
  · -- no field has the name of the variable that makes the event valid
    obtain rfl := List.mem_singleton.1 hy
    obtain ⟨p, -, hx⟩ := List.mem_flatMap.1 hx
    obtain ⟨f, hf, -, hx⟩ := exists_of_mem_fieldNames hx
    exact absurd (List.mem_flatMap.2 ⟨f, hf, heq ▸ hx⟩) hvalid

/-- Two assignments of a payload have one target only if they are to a field that is **sent twice**,
or to a length of it. -/
theorem pairwise_refs (h : e.vars = .ok vs) (hn : (vs.map (·.name)).Nodup) {params : List Param}
    {payload : List Assignment} (hrefs : payload.map (·.ref) = (e.sentNames params).map .ident) :
    payload.Pairwise fun x y => x.ref = y.ref → ∃ field, (params.map (·.name)).Duplicate field ∧
      (x.ref = .ident (e.name ++ "." ++ field) ∨
        ∃ i, x.ref = .ident (lengthName (e.name ++ "." ++ field) (i + 1))) := by
  have hrefs' : (payload.map (·.ref)).Pairwise fun r r' => r = r' → ∃ field,
      (params.map (·.name)).Duplicate field ∧ (r = .ident (e.name ++ "." ++ field) ∨
        ∃ i, r = .ident (lengthName (e.name ++ "." ++ field) (i + 1))) := by
    rw [hrefs]
    refine List.pairwise_map.2 ((pairwise_sentNames h hn params).imp fun {n n'} hnames heq => ?_)
    obtain ⟨field, hfield, hmem⟩ := hnames (Expr.ident_injective heq)
    obtain ⟨f, -, rfl, hname⟩ := exists_of_mem_fieldNames hmem
    refine ⟨f.1, hfield, ?_⟩
    rcases DataType.mem_names.1 hname with rfl | ⟨i, -, rfl⟩
    · exact .inl rfl
    · exact .inr ⟨i, rfl⟩
  exact List.pairwise_map.1 hrefs'

end Event

/-! ### Expanding -/

section Expansion

variable {P : Assignment → Assignment → Prop} {n : Size}

/-- **Expanding brings about no conflict.** -/
theorem Edge.ConflictsOnly.expandDraws {e : Edge} {id : String} {es : List Edge}
    (h : e.ConflictsOnly P) (hes : e.expandDraws n id = .ok es) :
    ∀ e' ∈ es, e'.ConflictsOnly P := by
  intro e' he'
  cases expandsInto_of_mem hes e' he' with
  | kept => exact h
  | own _ hds =>
    intro d' hd'
    obtain ⟨d, hd, -, hassignments⟩ := hds d' hd'
    rw [hassignments]
    exact (h d hd).sublist (settled_sublist _)
  | draw => exact List.forall_mem_map.2 fun value _ => List.pairwise_singleton _ _
  | @continuation d rest hd hrest =>
    exact List.forall_mem_singleton.2 ((h d hd).sublist ((settled_sublist _).trans hrest))

end Expansion

/-! ### Compiled descriptors -/

namespace Descriptor

variable {d : Descriptor} {charts : Charts} {m : Model} {json : Json}

/-- The variables of an event that somebody sends have distinct names in a connected model. -/
theorem nodup_vars_of_connect {es : Events} {m m' : Model} (h : (d.connect es).Yields m () m')
    {e : Event} (he : e ∈ es.all) (hsent : e.hasSenders) :
    ∃ vs, e.vars = .ok vs ∧ (vs.map (·.name)).Nodup := by
  obtain ⟨live, m₁, -, -, -, -, hdeclare, -⟩ := yields_connect.1 h
  obtain ⟨-, rfl, vss, hvss, hvars⟩ := yields_declareEvents.1 hdeclare
  obtain ⟨⟨hnodup, -⟩, -⟩ := (Model.yields_addVariables _).1 hvars
  obtain ⟨vs, hmem, hvs⟩ := exists_of_mem_forall₂ (Result.mapM_eq_ok.1 hvss).flip
    (List.mem_filter.2 ⟨he, hsent⟩)
  exact ⟨vs, hvs, hnodup.sublist ((List.sublist_flatten_of_mem hmem).map _)⟩

/-- Two assignments **send a field twice**: they are, in this order, among those of a send in the
chart of an automaton that gives two values to one field of its event, and are to the field or to a
length of it. -/
def SendTwice (d : Descriptor) (charts : Charts) (automaton : String) (x y : Assignment) : Prop :=
  ∃ entry ∈ d.charts, ∃ c, chartOf charts entry = .ok c ∧ c.name = automaton ∧
    ∃ m₀ event params payload field, c.IsPayload (d.setting m₀) event params payload ∧
      [x, y].Sublist payload ∧ (params.map (·.name)).Duplicate field ∧
      (x.ref = .ident (event ++ "." ++ field) ∨
        ∃ i, x.ref = .ident (lengthName (event ++ "." ++ field) (i + 1)))

/-- The automata of charts conflict only where a **field is sent twice**. -/
theorem conflictsOnly_of_register {es : Events} {m₁ m₂ : Model}
    (hregister : (d.register charts).Yields d.start es m₁)
    (hconnect : (d.connect es).Yields m₁ () m₂) :
    ∀ a ∈ m₁.automata, ∀ e ∈ a.edges, e.ConflictsOnly (d.SendTwice charts a.name) := by
  obtain ⟨m₀, es₀, found, hempty, hes₀, hfound, hadd⟩ := yields_register hregister
  have hcharted := charted_register hregister
  obtain ⟨-, hcompiled⟩ := grown_addCharts found (declaredEvents_spec hes₀).1 hadd
  intro a ha e he dest hdest
  rcases hcompiled a ha with hold | ⟨c, hc, es₁, es₂, hn₁, hcompile, hgrows⟩
  · simp [hempty] at hold
  obtain ⟨entry, hentry, hchart⟩ := exists_of_mem_forall₂ (Result.mapM_eq_ok.1 hfound) hc
  obtain ⟨hgrown, -⟩ := Chart.compile_known hn₁ hcompile
  refine (Chart.compile_joint hn₁ hcompile e he dest hdest).imp fun {x y} hjoint hconflict => ?_
  obtain ⟨event, params, payload, haction, hpayload, hlaid, hsub⟩ := hjoint hconflict
  obtain ⟨ev, hev, rfl, -, hrefs⟩ := (hlaid.mono (hgrown.nodup hn₁) hgrows).refs
  -- somebody sends the event, so its variables are declared with distinct names
  have hsent : ev.hasSenders := by
    obtain ⟨ev', hget, hmember⟩ := hcharted.registered a ha e he .sender ev.name haction
    obtain rfl := Option.some.inj (hget.symm.trans (Events.get?_of_mem hcharted.events hev))
    exact Event.hasSenders_iff.2 ⟨_, hmember⟩
  obtain ⟨vs, hvs, hnodup⟩ := nodup_vars_of_connect hconnect hev hsent
  obtain ⟨field, hfield, href⟩ :=
    List.pairwise_iff_forall_sublist.1 (ev.pairwise_refs hvs hnodup hrefs) hsub hconflict.2
  exact ⟨entry, hentry, c, hchart, (Chart.compile_parts hcompile).2.1.symm, m₀, ev.name, params,
    payload, field, hpayload, hsub, hfield, href⟩

/-- **Simultaneous assignments never conflict**, unless a send gives two values to one field: two
assignments of a destination that have one index and one target are those of such a field, or of its
length. -/
theorem compile_conflicts (h : d.compile charts = .ok (m, json)) :
    ∀ a ∈ m.automata, ∀ e ∈ a.edges, e.ConflictsOnly (d.SendTwice charts a.name) := by
  obtain ⟨es, m₁, hregister, hconnect⟩ := yields_of_compile h
  obtain ⟨buffers, hexpanded⟩ := automata_connect (charted_register hregister).nodup hconnect
  intro a' ha' e' he'
  obtain ⟨a, ha, hexpand⟩ := exists_of_mem_forall₂ hexpanded ha'
  obtain ⟨e, he, id, expanded, hes, hmem⟩ := Automaton.exists_of_mem_expandDraws hexpand.draws he'
  refine Edge.ConflictsOnly.expandDraws ?_ hes e' hmem
  rw [(Automaton.expandDraws_ok hexpand.draws).1]
  rcases List.mem_append.1 ha with ha | ha
  · obtain ⟨a₁, ha₁, rfl⟩ := List.mem_map.1 ha
    exact conflictsOnly_of_register hregister hconnect a₁ ha₁ e (Automaton.mem_edges_without.1 he).1
  · obtain ⟨ev, -, rfl⟩ := List.mem_map.1 ha
    -- buffers assign nothing
    intro dest hdest
    have hnone : dest.assignments = [] := List.eq_nil_iff_forall_not_mem.2 fun x hx => by
      obtain ⟨_, -, hfalse⟩ := Model.targets_buffer ev (fun _ => False) e he dest hdest x hx
      exact hfalse
    rw [hnone]
    exact List.Pairwise.nil

/-- A chart whose send writes a number and a whole array at one index. -/
theorem compile_conflicts_of_payload :
    let sender : Descriptor :=
      { name := "network", capacity := .whole 2, randomOptions := .whole 1
        charts := [.inline
          { name := "sender", initial := "start"
            datamodel := some
              [{ id := "a", type := "int32[2][2]" }, { id := "b", type := "int32[2]" }]
            states := [{ id := "start", onEntry := some [
              .assign "a[0][1]" "5",
              .send "go" (some [{ name := "f", expr := "1" }, { name := "g", expr := "b" }]),
              .assign "a[1][1]" "6"] }] }] }
    ∃ m json, sender.compile = .ok (m, json) ∧
      (∃ a ∈ m.automata, ∃ e ∈ a.edges, ∃ dest ∈ e.destinations,
        (dest.assignments.filter (·.index == .zero)).length = 4) ∧
      ∀ a ∈ m.automata, ∀ e ∈ a.edges, e.ConflictsOnly (sender.SendTwice [] a.name) := by
  intro sender
  have haccepted : (sender.compile.toOption.any fun r => decide (∃ a ∈ r.1.automata, ∃ e ∈ a.edges,
      ∃ dest ∈ e.destinations, (dest.assignments.filter (·.index == .zero)).length = 4)) =
        true := by
    decide +kernel
  obtain ⟨⟨m, json⟩, hcompile, htogether⟩ := Result.exists_of_any haccepted
  exact ⟨m, json, hcompile, of_decide_eq_true htogether, compile_conflicts hcompile⟩

/-- **A field that is sent twice is assigned twice at once**: the descriptor is accepted, and two
assignments of one destination conflict. -/
theorem compile_conflicts_sentTwice :
    let sender : Descriptor :=
      { name := "network", capacity := .whole 1, randomOptions := .whole 1
        charts := [.inline
          { name := "sender", initial := "start"
            states := [{ id := "start", onEntry := some [
              .send "go" (some [{ name := "f", expr := "1" },
                { name := "f", expr := "2" }])] }] }] }
    ∃ m json, sender.compile = .ok (m, json) ∧
      ∃ a ∈ m.automata, ∃ e ∈ a.edges, ∃ dest ∈ e.destinations,
        ¬ dest.assignments.Pairwise fun x y => ¬ (x.index = y.index ∧ x.ref = y.ref) := by
  intro sender
  have hconflict : (sender.compile.toOption.any fun r => decide (∃ a ∈ r.1.automata, ∃ e ∈ a.edges,
      ∃ dest ∈ e.destinations,
        ¬ dest.assignments.Pairwise fun x y => ¬ (x.index = y.index ∧ x.ref = y.ref))) = true := by
    decide +kernel
  obtain ⟨⟨m, json⟩, hcompile, hconflict⟩ := Result.exists_of_any hconflict
  exact ⟨m, json, hcompile, of_decide_eq_true hconflict⟩

end Descriptor

end ChartNet
