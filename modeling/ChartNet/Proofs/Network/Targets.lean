import ChartNet.Proofs.Network.Extension

/-!
# Targets of a network

Every assignment of a compiled model has a target that the model **resolves**: its variable is one
of the automaton, which is found first, or else one of the model (`Descriptor.compile_targets`). The
variables that charts know of when they are compiled are those of their own data, the globals of the
descriptor, which are no arrays (`Model.Plain`), and the parts of events. When the charts are
connected, the variables of those events are declared that somebody sends.
-/

namespace ChartNet

open Build

namespace Model

/-! ### Globals of a descriptor -/

/-- A model is **plain** if its globals have distinct names and none of them is an array. -/
structure Plain (m : Model) : Prop where
  distinct : m.globals.Nodup
  vars : ∀ v ∈ m.vars, v.type.dimensions = 0
  constants : ∀ c ∈ m.constants, c.type.dimensions = 0

/-- A model **stays plain** in another if that is plain in case it is. -/
def StaysPlain (m m' : Model) : Prop :=
  m.Plain → m'.Plain

instance : IsPreorder Model StaysPlain where
  refl _ := id
  trans _ _ _ h h' := h' ∘ h

theorem plain_addVariables {vs : List Variable} (hvs : ∀ v ∈ vs, v.type.dimensions = 0) :
    Follows StaysPlain (addVariables vs) := by
  induction vs with
  | nil => exact .pure ()
  | cons v vs ih =>
    rw [List.forall_mem_cons] at hvs
    refine .bind (.of_change fun {m m'} h hm => ?_) fun _ => ih hvs.2
    have hbuilds : m.BuildsOn m' :=
      extends_addVariable v (yields_change.2 h : (change _).Yields m () m')
    have hdistinct := hbuilds.distinct hm.distinct
    obtain ⟨-, rfl⟩ := addVariable_eq_ok.1 h
    refine ⟨hdistinct, List.forall_mem_append.2 ⟨hm.vars, ?_⟩, hm.constants⟩
    simpa using hvs.1

theorem plain_addConstant {c : Constant} (hc : c.type.dimensions = 0) :
    Follows StaysPlain (change (addConstant c)) := by
  refine .of_change fun {m m'} h hm => ?_
  obtain ⟨hnew, rfl⟩ := addConstant_eq_ok.1 h
  refine ⟨?_, hm.vars, List.forall_mem_append.2 ⟨hm.constants, by simpa using hc⟩⟩
  have hglobals : ({ m with constants := m.constants ++ [c] } : Model).globals =
      m.globals ++ [c.name] := by simp [globals]
  rw [hglobals]
  simpa using hm.distinct.concat (isGlobal_eq_false.1 hnew)

theorem plain_addConstants {cs : List Constant} (hcs : ∀ c ∈ cs, c.type.dimensions = 0) :
    Follows StaysPlain (addConstants cs) := by
  induction cs with
  | nil => exact .pure ()
  | cons c cs ih =>
    rw [List.forall_mem_cons] at hcs
    exact .bind (plain_addConstant hcs.1) fun _ => ih hcs.2

/-- A **world** consists of numbers. -/
theorem plain_addWorld (w : World) : Follows StaysPlain (addWorld w) := by
  have hrobots : ∀ rs : List Robot, Follows StaysPlain (addRobots rs) := by
    intro rs
    induction rs with
    | nil => exact .pure ()
    | cons r rs ih =>
      refine .bind (plain_addVariables ?_) fun _ => .bind (plain_addConstants ?_) fun _ => ih
      · simp [World.robotVariables, DataType.int, DataType.real]
      · simp [World.robotConstants, World.realConstant, DataType.real]
  refine .bind (plain_addConstants fun c hc => ?_) fun _ => hrobots _
  rcases List.mem_append.1 hc with hc | hc
  · simp only [List.mem_cons, List.not_mem_nil, or_false] at hc
    rcases hc with rfl | rfl <;> rfl
  · obtain ⟨⟨p, i⟩, -, hc⟩ := List.mem_flatMap.1 hc
    simp only [List.mem_cons, List.not_mem_nil, or_false] at hc
    rcases hc with rfl | rfl <;> rfl

end Model

namespace Descriptor

/-- A constant that is declared is a scalar. -/
theorem dimensions_constant {known : Constants} {decl : ConstantDecl} {c : Constant}
    (h : constant known decl = .ok c) : c.type.dimensions = 0 := by
  obtain ⟨value, -, h⟩ := Result.bind_eq_ok.1 h
  split at h
  · cases h
    rfl
  · split at h
    · cases h
      rfl
    · cases h
  · cases h
    rfl
  · cases h

theorem plain_declareConstants (ds : List ConstantDecl) :
    Follows Model.StaysPlain (declareConstants ds) := by
  induction ds with
  | nil => exact .pure ()
  | cons decl ds ih =>
    intro m u m' h
    simp only [declareConstants, yields_bind, yields_get, yields_ofResult] at h
    obtain ⟨_, _, ⟨rfl, rfl⟩, c, _, ⟨hc, rfl⟩, _, m₁, hadd, hrest⟩ := h
    exact ih hrest ∘ Model.plain_addConstant (dimensions_constant hc) hadd

/-- **The globals of a descriptor are plain.** -/
theorem plain_declareGlobals {d : Descriptor} {m : Model}
    (h : d.declareGlobals.Yields d.start () m) : m.Plain := by
  have hstart : d.start.Plain := ⟨by simp [start, Model.globals], by simp [start], by simp [start]⟩
  refine (?_ : Follows Model.StaysPlain d.declareGlobals) h hstart
  unfold declareGlobals
  cases d.world with
  | none => exact plain_declareConstants _
  | some w => exact .bind (Model.plain_addWorld w) fun _ => plain_declareConstants _

/-! ### Charts of a descriptor -/

/-- An automaton **keeps to** what it knows: its variables are distinct and come with their lengths,
and it assigns to what it knows when all events of `es` are registered. -/
structure KeepsTo (setting : Setting) (es : Events) (a : Automaton) : Prop where
  measured : a.Measured
  distinct : (a.vars.map (·.name)).Nodup
  targets : a.Targets (Chart.Knows setting a es)

/-- Adding charts adds nothing but automata that keep to what they know. -/
theorem keepsTo_addCharts {setting : Setting} (cs : List Chart) {es es' : Events} {m m' : Model}
    (hn : es.names.Nodup) (h : (addCharts setting es cs).Yields m es' m')
    (hm : ∀ a ∈ m.automata, KeepsTo setting es a) :
    m'.vars = m.vars ∧ m'.constants = m.constants ∧
      ∀ a ∈ m'.automata, KeepsTo setting es' a := by
  induction cs generalizing es m with
  | nil =>
    obtain ⟨rfl, rfl⟩ := yields_addCharts_nil.1 h
    exact ⟨rfl, rfl, hm⟩
  | cons c cs ih =>
    obtain ⟨a, es₁, hcompile, -, hrest⟩ := yields_addCharts_cons.1 h
    obtain ⟨hgrows, hmeasured, hdistinct, htargets⟩ := Chart.compile_known hn hcompile
    have hrest' := ih (hgrows.nodup hn) hrest ?_
    · exact hrest'
    refine List.forall_mem_append.2 ⟨fun b hb => ?_, ?_⟩
    · obtain ⟨hmeasured, hdistinct, htargets⟩ := hm b hb
      refine ⟨hmeasured, hdistinct, fun e he => (htargets e he).mono fun x hx => ?_⟩
      exact hx.mono hn hgrows
    · rw [List.forall_mem_singleton]
      exact ⟨hmeasured, hdistinct, htargets⟩

end Descriptor

/-! ### Compiled descriptors -/

/-- A model **resolves** a name in an automaton to one declared variable: to that of the automaton,
or else to the global variable of the name, which is then no constant. -/
def Model.Resolves (m : Model) (a : Automaton) (x : String) : Prop :=
  (a.vars.map (·.name)).count x = 1 ∨
    (x ∉ a.vars.map (·.name) ∧ (m.vars.map (·.name)).count x = 1 ∧
      x ∉ m.constants.map (·.name))

/-- A variable that is not one of the automaton is global. -/
theorem Model.resolves_of_mem {m : Model} {a : Automaton} {x : String} (hm : m.globals.Nodup)
    (hown : x ∉ a.vars.map (·.name)) (hx : x ∈ m.vars.map (·.name)) : m.Resolves a x := by
  obtain ⟨hvars, -, hdisjoint⟩ := List.nodup_append.1 hm
  refine .inr ⟨hown, List.count_eq_one_of_mem hvars hx, fun hconstant => ?_⟩
  exact hdisjoint _ hx _ hconstant rfl

namespace Descriptor

variable {d : Descriptor} {charts : Charts} {m : Model} {json : Json}

/-- What an automaton knows that has no irregular name is its own, a global, or held by an event. -/
theorem KeepsTo.cases_of_knows {m₀ : Model} (hm₀ : m₀.Plain) {es : Events} {a : Automaton}
    (ha : KeepsTo (d.setting m₀) es a) {x : String} (hx : Chart.Knows (d.setting m₀) a es x) :
    x ∈ a.vars.map (·.name) ∨ x ∈ m₀.vars.map (·.name) ∨ x ∈ m₀.constants.map (·.name) ∨
      (∃ e ∈ es.all, e.Offers x) ∨ Irregular x := by
  -- variables of the automaton hide those of the model, and these hide constants
  rcases hx with ⟨y, t, htype, hx⟩ | hoffered
  · cases hown : a.getVariable? y with
    | some v =>
      have hv : v ∈ a.vars := List.mem_of_find?_eq_some hown
      obtain rfl : v.name = y := by simpa using List.find?_some hown
      obtain rfl : v.type = t := by simpa [Setting.scope, hown] using htype
      rcases ha.measured v hv with ⟨z, i, hname⟩ | hlengths
      · rcases DataType.mem_names.1 hx with rfl | ⟨j, -, rfl⟩
        · exact .inl (List.mem_map_of_mem hv)
        · rw [hname]
          exact .inr (.inr (.inr (.inr (irregular_lengthName (isLengthName_lengthName z _) _))))
      · exact .inl (hlengths x hx)
    | none =>
      have hglobal : m₀.typeOf y = some t := by simpa [Setting.scope, setting, hown] using htype
      unfold Model.typeOf at hglobal
      cases hvar : m₀.getVariable? y with
      | some v =>
        have hv : v ∈ m₀.vars := List.mem_of_find?_eq_some hvar
        obtain rfl : v.name = y := by simpa using List.find?_some hvar
        obtain rfl : v.type = t := by simpa [hvar] using hglobal
        obtain rfl : x = v.name := by simpa [DataType.mem_names, hm₀.vars v hv] using hx
        exact .inr (.inl (List.mem_map_of_mem hv))
      | none =>
        obtain ⟨c, hfound, rfl⟩ : ∃ c, m₀.getConstant? y = some c ∧ c.type = t := by
          simpa [hvar] using hglobal
        have hc : c ∈ m₀.constants := List.mem_of_find?_eq_some hfound
        obtain rfl : c.name = y := by simpa using List.find?_some hfound
        obtain rfl : x = c.name := by simpa [DataType.mem_names, hm₀.constants c hc] using hx
        exact .inr (.inr (.inl (List.mem_map_of_mem hc)))
  · exact .inr (.inr (.inr (.inl hoffered)))

/-- The globals of a compiled model have distinct names. -/
theorem nodup_globals_of_compile (h : d.compile charts = .ok (m, json)) : m.globals.Nodup := by
  obtain ⟨es, m₁, hregister, hconnect⟩ := yields_of_compile h
  obtain ⟨m₀, es₀, found, hglobals, hes₀, -, hadd⟩ := yields_declareGlobals.1 hregister
  have hempty : m₀.automata = [] := (keeps_declareGlobals d _ _ _ hglobals).1
  obtain ⟨hvars, hconstants, -⟩ :=
    keepsTo_addCharts found (declaredEvents_spec hes₀).1 hadd (by simp [hempty])
  refine (buildsOn_connect hconnect).1.distinct ?_
  rw [Model.globals, hvars, hconstants]
  exact (plain_declareGlobals hglobals).distinct

/-- **Every assignment of a compiled model has a declared target**, unless it is to a constant, to a
part of an event that nobody sends, or to a name that is spelled irregularly like a length. -/
theorem compile_targets (h : d.compile charts = .ok (m, json)) :
    ∃ es m₁, (d.register charts).Yields d.start es m₁ ∧
      ∀ a ∈ m.automata, ∀ e ∈ a.edges, ∀ dest ∈ e.destinations, ∀ x ∈ dest.assignments,
        ∃ c, x.ref.chain? = some c ∧
          (m.Resolves a c.root ∨
            (c.root ∉ a.vars.map (·.name) ∧ c.root ∈ m.constants.map (·.name)) ∨
            (∃ event ∈ es.all, event.hasSenders = false ∧ event.Offers c.root) ∨
            Irregular c.root) := by
  obtain ⟨es, m₁, hregister, hconnect⟩ := yields_of_compile h
  obtain ⟨m₀, es₀, found, hglobals, hes₀, -, hadd⟩ := yields_declareGlobals.1 hregister
  have hplain := plain_declareGlobals hglobals
  have hempty : m₀.automata = [] := (keeps_declareGlobals d _ _ _ hglobals).1
  obtain ⟨hvars, hconstants, hkeeps⟩ :=
    keepsTo_addCharts found (declaredEvents_spec hes₀).1 hadd (by simp [hempty])
  obtain ⟨hbuilds, hdeclared⟩ := buildsOn_connect hconnect
  have hdistinct := nodup_globals_of_compile h
  refine ⟨es, m₁, hregister, fun a' ha' e he dest hdest x hx => ?_⟩
  rcases hbuilds.automata a' ha' with hnone | ⟨a, ha, ha'vars, htargets⟩
  · -- the buffer of an event assigns nothing
    obtain ⟨c, hc, hfalse⟩ := hnone (fun _ => False) e he dest hdest x hx
    exact hfalse.elim
  · have hkept := hkeeps a ha
    obtain ⟨c, hc, hknown⟩ := htargets _ hkept.targets e he dest hdest x hx
    refine ⟨c, hc, ?_⟩
    by_cases hown : c.root ∈ a'.vars.map (·.name)
    · refine .inl (.inl (List.count_eq_one_of_mem ?_ hown))
      rw [ha'vars]
      exact hkept.distinct
    · rcases hkept.cases_of_knows hplain hknown with
        hmine | hvar | hconstant | ⟨event, hevent, hoffers⟩ | hirregular
      · exact absurd (ha'vars ▸ hmine) hown
      · exact .inl (Model.resolves_of_mem hdistinct hown
          ((hbuilds.vars.map (·.name)).subset (hvars ▸ hvar)))
      · refine .inr (.inl ⟨hown, ?_⟩)
        rwa [hbuilds.constants, hconstants]
      · cases hsent : event.hasSenders with
        | false => exact .inr (.inr (.inl ⟨event, hevent, hsent, hoffers⟩))
        | true =>
          by_cases hirregular : Irregular c.root
          · exact .inr (.inr (.inr hirregular))
          · obtain ⟨vs, hvs, hmem⟩ := hdeclared event hevent hsent
            obtain ⟨v, hv, hname⟩ :=
              List.mem_map.1 (Event.mem_of_vars hvs (hoffers.holds hirregular))
            exact .inl (Model.resolves_of_mem hdistinct hown
              (hname ▸ List.mem_map_of_mem (hmem v hv)))
      · exact .inr (.inr (.inr hirregular))

/-- Charts that assign to what they send and to their own data: all targets are resolved. -/
theorem compile_targets_of_resolved :
    let sender : Chart :=
      { name := "sender", initial := "start"
        states := [{ id := "start"
                     onEntry := some [.send "go" (some [{ name := "f", expr := "1" }])] }] }
    let robot : Chart :=
      { name := "robot", initial := "start"
        datamodel := some [{ id := "x", type := "int32", expr := some "0" }]
        states := [{ id := "start", onEntry := some [.assign "x" "2"] }] }
    let d : Descriptor :=
      { name := "network", capacity := .whole 1, randomOptions := .whole 1
        charts := [.inline sender, .inline robot] }
    ∃ m json, d.compile = .ok (m, json) ∧
      (∀ x ∈ ["go.f", "x"], ∃ a ∈ m.automata, ∃ e ∈ a.edges, ∃ dest ∈ e.destinations,
        ∃ b ∈ dest.assignments, b.ref = .ident x) ∧
      ∀ a ∈ m.automata, ∀ e ∈ a.edges, ∀ dest ∈ e.destinations, ∀ b ∈ dest.assignments,
        ∃ c, b.ref.chain? = some c ∧ m.Resolves a c.root := by
  intro sender robot d
  obtain ⟨⟨m, json⟩, hcompile, hcheck⟩ := Result.exists_of_any (x := d.compile)
    (p := fun r => decide (r.1.constants = [] ∧
      (∀ x ∈ ["go.f", "x"], ∃ a ∈ r.1.automata, ∃ e ∈ a.edges, ∃ dest ∈ e.destinations,
        ∃ b ∈ dest.assignments, b.ref = .ident x) ∧
      ∀ a ∈ r.1.automata, ∀ e ∈ a.edges, ∀ dest ∈ e.destinations, ∀ b ∈ dest.assignments,
        (b.ref.chain?.bind (·.root.toList.getLast?)) ≠ some 'n')) (by decide +kernel)
  obtain ⟨hconstants, hassigned, hends⟩ := of_decide_eq_true hcheck
  obtain ⟨es, m₁, hregister, htargets⟩ := compile_targets hcompile
  obtain ⟨es', hes', hsent⟩ := Result.exists_of_any (x := ((d.register []).run.run d.start).1)
    (p := fun es => decide (∀ event ∈ es.all, event.hasSenders = true)) (by decide +kernel)
  obtain rfl : es = es' := Except.ok.inj ((congrArg Prod.fst hregister).symm.trans hes')
  refine ⟨m, json, hcompile, hassigned, fun a ha e he dest hdest b hb => ?_⟩
  obtain ⟨c, hc, hresolved | ⟨-, hconstant⟩ | ⟨event, hevent, hunsent, -⟩ | hirregular⟩ :=
    htargets a ha e he dest hdest b hb
  · exact ⟨c, hc, hresolved⟩
  · rw [show m.constants = [] from hconstants] at hconstant
    simp at hconstant
  · simp [of_decide_eq_true hsent event hevent] at hunsent
  -- names of lengths end in `n`, and nothing that is assigned does
  · refine absurd ?_ (hends a ha e he dest hdest b hb)
    obtain ⟨y, digits, ⟨hspelled, -⟩, -⟩ := hirregular
    rw [hc, Option.bind_some, hspelled, String.toList_append, List.getLast?_append]
    rfl

/-- **A variable of an automaton hides a global one**: a chart that declares the name of a field of
an event assigns to its own variable. -/
theorem compile_targets_shadowed :
    let sender : Chart :=
      { name := "sender", initial := "start"
        states := [{ id := "start"
                     onEntry := some [.send "go" (some [{ name := "f", expr := "1" }])] }] }
    let robot : Chart :=
      { name := "robot", initial := "start"
        datamodel := some [{ id := "go.f", type := "int32", expr := some "0" }]
        states := [{ id := "start", onEntry := some [.assign "go.f" "2"] }] }
    let d : Descriptor :=
      { name := "network", capacity := .whole 1, randomOptions := .whole 1
        charts := [.inline sender, .inline robot] }
    ∃ m json, d.compile = .ok (m, json) ∧ "go.f" ∈ m.vars.map (·.name) ∧
      ∃ a ∈ m.automata, "go.f" ∈ a.vars.map (·.name) ∧
        ∃ e ∈ a.edges, ∃ dest ∈ e.destinations, ∃ b ∈ dest.assignments, b.ref = .ident "go.f" := by
  intro sender robot d
  obtain ⟨⟨m, json⟩, hcompile, hcheck⟩ := Result.exists_of_any (x := d.compile)
    (p := fun r => decide ("go.f" ∈ r.1.vars.map (·.name) ∧
      ∃ a ∈ r.1.automata, "go.f" ∈ a.vars.map (·.name) ∧
        ∃ e ∈ a.edges, ∃ dest ∈ e.destinations, ∃ b ∈ dest.assignments, b.ref = .ident "go.f"))
    (by decide +kernel)
  exact ⟨m, json, hcompile, of_decide_eq_true hcheck⟩

/-- The exceptions occur: targets that no variable is declared for may be a constant, a field of an
event that nobody sends, and the length of a length. -/
example :
    let d : Descriptor :=
      { name := "network", capacity := .whole 1, randomOptions := .whole 1
        constants := [{ name := "n", type := .int, value := .number 1 }]
        events := [{ name := "go", fields := [("f", "int32")] }]
        charts := [.inline
          { name := "robot", initial := "start"
            datamodel := some [{ id := "y", type := "int32[2][3]" }]
            states := [{ id := "start"
                         onEntry := some
                           [.assign "n" "1", .assign "go.f" "1", .assign "y.d2_len[0]" "1"] }] }] }
    d.compile.toOption.any (fun r => ∀ x ∈ ["n", "go.f", "y.d2_len.d1_len"],
      x ∉ r.1.vars.map (·.name) ∧ ∃ a ∈ r.1.automata, x ∉ a.vars.map (·.name) ∧
        ∃ e ∈ a.edges, ∃ dest ∈ e.destinations, ∃ b ∈ dest.assignments,
          b.ref.chain?.map (·.root) = some x) := by
  decide +kernel

end Descriptor

end ChartNet
