import ChartNet.Proofs.Body.Targets
import ChartNet.Proofs.Chart.Transitions

/-!
# Targets of charts

The automaton of a chart has the variables that the data of the chart declare, and assigns to what
is known to it (`Chart.compile_known`). An array among its variables has its length variables beside
it, unless it is a length variable itself: these have none of their own, although those of the later
dimensions are arrays.
-/

namespace ChartNet

/-! ### Variables of an automaton -/

/-- Each variable of an automaton is a length variable or has its **length variables** beside it. -/
def Automaton.Measured (a : Automaton) : Prop :=
  ∀ v ∈ a.vars, (∃ y i, v.name = lengthName y (i + 1)) ∨
    ∀ x ∈ v.type.names v.name, x ∈ a.vars.map (·.name)

namespace Data

variable {d : Data} {vs : List Variable} {types : TypeLookup}

/-- The variables of an array are the array and variables with the names and types of its
lengths. -/
theorem exists_of_arrayVariables {shape : ArrayShape}
    (h : d.arrayVariables shape types = .ok vs) :
    ∃ v lengths, vs = v :: lengths ∧ v.name = d.id ∧ v.type = .array shape ∧
      lengths.map (·.name) = ((List.range shape.sizes.length).map fun i =>
        lengthName d.id (i + 1)) ∧ ∀ w ∈ lengths, ∃ i, w.type = shape.lengthType i := by
  have hcopied : ∀ {source lengths}, copiedLengths d.id source shape = .ok lengths →
      lengths.map (·.name) = ((List.range shape.sizes.length).map fun i =>
        lengthName d.id (i + 1)) ∧ ∀ w ∈ lengths, ∃ i, w.type = shape.lengthType i := by
    intro source lengths hlengths
    obtain ⟨vars, hvars, heq⟩ := Result.bind_eq_ok.1 hlengths
    cases heq
    rw [← map_name_lengthVariables hvars]
    refine ⟨List.ext_getElem (by simp) (by simp), fun w hw => ?_⟩
    obtain ⟨i, hi, rfl⟩ := List.mem_mapIdx.1 hw
    exact type_of_lengthVariables hvars vars[i] (List.getElem_mem hi)
  unfold arrayVariables at h
  split at h
  · simp only [Result.bind_eq_ok] at h
    obtain ⟨v, hv, lengths, hlengths, heq⟩ := h
    cases heq
    exact ⟨v, lengths, rfl, (Variable.of_make hv).1, (Variable.of_make hv).2,
      map_name_lengthVariables hlengths, type_of_lengthVariables hlengths⟩
  · obtain ⟨source, -, h⟩ := Result.bind_eq_ok.1 h
    split at h
    · simp only [Result.bind_eq_ok] at h
      obtain ⟨init, -, fitted, -, starts, -, v, hv, lengths, hlengths, heq⟩ := h
      cases heq
      exact ⟨v, lengths, rfl, (Variable.of_make hv).1, (Variable.of_make hv).2,
        map_name_lengthVariables hlengths, type_of_lengthVariables hlengths⟩
    · split at h
      · split at h
        · cases h
        · simp only [Result.bind_eq_ok] at h
          obtain ⟨lengths, hlengths, v, hv, heq⟩ := h
          cases heq
          exact ⟨v, lengths, rfl, (Variable.of_make hv).1, (Variable.of_make hv).2,
            hcopied hlengths⟩
      · cases h
    · simp only [Result.bind_eq_ok] at h
      obtain ⟨v, hv, lengths, hlengths, heq⟩ := h
      cases heq
      exact ⟨v, lengths, rfl, (Variable.of_make hv).1, (Variable.of_make hv).2,
        map_name_lengthVariables hlengths, type_of_lengthVariables hlengths⟩

/-- The type of a variable is the declared one, or that with the bounds of its entry. -/
theorem boundedType_ok {t u : DataType} (h : d.boundedType t = .ok u) :
    u = t ∨ ∃ kind lower upper, d.lowerBound.mapM (boundExpr kind) = .ok lower ∧
      d.upperBound.mapM (boundExpr kind) = .ok upper ∧ u = .bounded kind lower upper := by
  simp only [boundedType] at h
  split at h
  · exact .inl (Except.ok.inj h).symm
  · split at h
    · simp only [Result.bind_eq_ok] at h
      obtain ⟨lower, hlower, upper, hupper, heq⟩ := h
      exact .inr ⟨.int, lower, upper, hlower, hupper, (Except.ok.inj heq).symm⟩
    · simp only [Result.bind_eq_ok] at h
      obtain ⟨lower, hlower, upper, hupper, heq⟩ := h
      exact .inr ⟨.real, lower, upper, hlower, hupper, (Except.ok.inj heq).symm⟩
    · cases h

/-- Bounds make no array of a type. -/
theorem isArray_boundedType {t u : DataType} (h : d.boundedType t = .ok u)
    (ht : t.isArray = false) : u.isArray = false := by
  rcases boundedType_ok h with rfl | ⟨kind, lower, upper, -, -, rfl⟩
  · exact ht
  · rfl

theorem of_scalarVariable {t : DataType} {v : Variable} (h : d.scalarVariable t types = .ok v) :
    v.name = d.id ∧ v.type = t := by
  unfold scalarVariable at h
  split at h
  · exact Variable.of_make h
  · simp only [Result.bind_eq_ok] at h
    obtain ⟨init, -, actual, -, h⟩ := h
    split at h
    · split at h
      · exact Variable.of_make h
      · cases h
    · exact Variable.of_make h

/-- The variables of an entry are those of an array, or one with the declared type and the bounds of
the entry. -/
theorem vars_cases {capacity : Size} (h : d.vars capacity types = .ok vs) :
    ∃ declared, DeclaredType.ofText d.type capacity = .ok declared ∧
      ((∃ shape, declared.type = .array shape ∧ d.arrayVariables shape types = .ok vs) ∨
        declared.type.isArray = false ∧ ∃ t v, d.boundedType declared.type = .ok t ∧
          d.scalarVariable t types = .ok v ∧ vs = [v]) := by
  obtain ⟨declared, hdeclared, h⟩ := Result.bind_eq_ok.1 h
  refine ⟨declared, hdeclared, ?_⟩
  split at h
  · rename_i shape htype
    split at h
    · cases h
    exact .inl ⟨shape, htype, h⟩
  · rename_i hscalar
    simp only [Result.bind_eq_ok] at h
    obtain ⟨t, ht, v, hv, heq⟩ := h
    refine .inr ⟨?_, t, v, ht, hv, (Except.ok.inj heq).symm⟩
    cases htype : declared.type with
    | array shape => exact absurd htype (hscalar shape)
    | _ => rfl

/-- The variables of an entry are one of some **type** and its length variables. -/
theorem exists_type_of_vars {capacity : Size} (h : d.vars capacity types = .ok vs) :
    ∃ t, vs.map (·.name) = t.names d.id ∧
      ∀ v ∈ vs, v.name = d.id ∧ v.type = t ∨ ∃ i, v.name = lengthName d.id (i + 1) := by
  obtain ⟨declared, -, ⟨shape, -, hvars⟩ | ⟨hscalar, t, v, ht, hv, rfl⟩⟩ := vars_cases h
  · obtain ⟨v, lengths, rfl, hname, htype, hlengths, -⟩ := exists_of_arrayVariables hvars
    refine ⟨.array shape, by rw [List.map_cons, hname, hlengths]; rfl, ?_⟩
    rw [List.forall_mem_cons]
    refine ⟨.inl ⟨hname, htype⟩, fun w hw => .inr ?_⟩
    have hmem : w.name ∈ lengths.map (·.name) := List.mem_map_of_mem hw
    rw [hlengths] at hmem
    obtain ⟨i, -, hi⟩ := List.mem_map.1 hmem
    exact ⟨i, hi.symm⟩
  · obtain ⟨hname, htype⟩ := of_scalarVariable hv
    have hdimensions := DataType.dimensions_of_not_isArray (isArray_boundedType ht hscalar)
    refine ⟨t, by simp [DataType.names, hdimensions, hname], ?_⟩
    rw [List.forall_mem_singleton]
    exact .inl ⟨hname, htype⟩

end Data

/-- Variables are added at the end, and their names stay distinct. -/
theorem Automaton.vars_of_addVariables (vs : List Variable) {a a' : Automaton}
    (h : vs.foldlM addVariable a = .ok a') : a'.vars = a.vars ++ vs ∧
      ((a.vars.map (·.name)).Nodup → (a'.vars.map (·.name)).Nodup) := by
  induction vs generalizing a with
  | nil =>
    cases h
    simp
  | cons v vs ih =>
    rw [List.foldlM_cons, Result.bind_eq_ok] at h
    obtain ⟨a₁, hfirst, hrest⟩ := h
    obtain ⟨hvars, hnodup⟩ := ih hrest
    obtain ⟨hfresh, rfl⟩ := addVariable_eq_ok.1 hfirst
    exact ⟨by simp [hvars], fun hn => hnodup (by simpa using hn.concat hfresh)⟩

/-- Declared data are measured and have distinct names. -/
theorem Automaton.measured_declareData (ds : List Data) {capacity : Size} {types : TypeLookup}
    {a a' : Automaton} (h : a.declareData capacity types ds = .ok a') (ha : a.Measured)
    (hn : (a.vars.map (·.name)).Nodup) : a'.Measured ∧ (a'.vars.map (·.name)).Nodup := by
  induction ds generalizing a with
  | nil =>
    cases h
    exact ⟨ha, hn⟩
  | cons d ds ih =>
    simp only [declareData, Result.bind_eq_ok] at h
    obtain ⟨vs, hvs, a₁, hadd, hrest⟩ := h
    obtain ⟨hvars, hnodup⟩ := vars_of_addVariables vs hadd
    obtain ⟨t, hnames, hkinds⟩ := Data.exists_type_of_vars hvs
    refine ih hrest (fun v hv => ?_) (hnodup hn)
    rw [hvars, List.map_append] at *
    rcases List.mem_append.1 hv with hv | hv
    · exact (ha v hv).imp_right fun hlengths x hx => List.mem_append_left _ (hlengths x hx)
    · rcases hkinds v hv with ⟨hname, htype⟩ | ⟨i, hname⟩
      · refine .inr fun x hx => List.mem_append_right _ ?_
        rwa [hnames, ← htype, ← hname]
      · exact .inl ⟨d.id, i, hname⟩

/-! ### What an automaton assigns to -/

/-- All assignments of an automaton have targets with some property. -/
def Automaton.Targets (P : String → Prop) (a : Automaton) : Prop :=
  ∀ e ∈ a.edges, e.Targets P

namespace Chart

variable {c : Chart} {setting : Setting} {s : State} {es es' es'' : Events} {a a' a'' : Automaton}

/-- What an automaton of a setting **knows** once some events are registered. -/
def Knows (setting : Setting) (a : Automaton) (es : Events) : String → Prop :=
  Known (setting.scope a).vars es

/-- Only the variables of an automaton count for what it knows. -/
theorem knows_congr (h : a'.vars = a.vars) : Knows setting a' es = Knows setting a es := by
  unfold Knows Setting.scope Automaton.getVariable?
  rw [h]

/-- A part of a compilation **keeps to what is known**: it leaves the variables alone, lets events
grow, and assigns to what is known in the end. -/
structure KeepsToKnown (setting : Setting) (a : Automaton) (es : Events) (a' : Automaton)
    (es' : Events) : Prop where
  vars : a'.vars = a.vars
  grows : es.Grows es'
  targets : a.Targets (Knows setting a es) → a'.Targets (Knows setting a' es')

theorem KeepsToKnown.trans (h : KeepsToKnown setting a es a' es')
    (h' : KeepsToKnown setting a' es' a'' es'') : KeepsToKnown setting a es a'' es'' where
  vars := h'.vars.trans h.vars
  grows := h.grows.trans h'.grows
  targets ha := h'.targets (h.targets ha)

/-- Changing locations keeps to what is known. -/
theorem KeepsToKnown.of_edges (hvars : a'.vars = a.vars) (hedges : a'.edges = a.edges) :
    KeepsToKnown setting a es a' es where
  vars := hvars
  grows := .refl es
  targets ha := by
    rw [knows_congr hvars, Automaton.Targets, hedges]
    exact ha

/-- So does adding edges that assign to what is known then. -/
theorem KeepsToKnown.of_addEdges {edges : List Edge} (locations : List String)
    (hn : es.names.Nodup) (hgrows : es.Grows es')
    (hedges : ∀ e ∈ edges, e.Targets (Knows setting a es')) :
    KeepsToKnown setting a es ((a.addEdges edges).addLocations locations) es' where
  vars := by simp
  grows := hgrows
  targets ha := by
    rw [knows_congr (a := a) (by simp), Automaton.Targets, Automaton.edges_addLocations,
      Automaton.edges_addEdges]
    refine List.forall_mem_append.2 ⟨fun e he => ?_, hedges⟩
    exact (ha e he).mono fun x hx => hx.mono hn hgrows

/-! ### Bodies, states and the start -/

/-- Bodies assign to what is known in the end. -/
theorem bodies_known {scope : BodyScope} {t : Transition} (ways : List Way) {total : Float}
    {found : List Body} (hn : es.names.Nodup)
    (h : (bodies scope s t total ways).Yields es found es') :
    es.Grows es' ∧ ∀ b ∈ found, b.Targets (Known scope.vars es') := by
  induction ways generalizing total es found with
  | nil =>
    obtain ⟨rfl, rfl⟩ := yields_bodies_nil.1 h
    exact ⟨.refl _, by simp⟩
  | cons w ws ih =>
    obtain ⟨body, es₁, others, hbody, hothers, rfl⟩ := yields_bodies_cons.1 h
    obtain ⟨hgrows, hown⟩ := BodyScope.steps_known _ hn (by simp) hbody
    obtain ⟨hgrows', hknown⟩ := ih (hgrows.nodup hn) hothers
    refine ⟨hgrows.trans hgrows', ?_⟩
    rw [List.forall_mem_cons]
    exact ⟨hown.mono fun x hx => hx.mono (hgrows.nodup hn) hgrows', hknown⟩

/-- Registering a receiver lets events grow. -/
theorem grows_received (es : Events) (automaton id : String) (t : Transition) :
    es.Grows (received es automaton id t) := by
  unfold received
  split
  · exact es.grows_addReceiver _ _ _
  · exact .refl es

theorem transition_keepsToKnown {r : StateRecord} {t : Transition} {condition : Option Expr}
    (hn : es.names.Nodup) (h : (c.transition setting a r s t).Yields es (a', condition) es') :
    KeepsToKnown setting a es a' es' := by
  obtain ⟨ways, found, -, -, hfound, rfl⟩ := yields_transition.1 h
  have hreceived := grows_received es a.name s.id t
  obtain ⟨hgrows, hknown⟩ := bodies_known ways (hreceived.nodup hn) hfound
  refine .of_addEdges _ hn (hreceived.trans hgrows) ?_
  rw [List.forall_mem_cons]
  refine ⟨fun d hd => ?_, fun e he => ?_⟩
  · obtain ⟨body, hbody, rfl⟩ := List.mem_map.1 hd
    exact (hknown body hbody).head
  · obtain ⟨body, hbody, he⟩ := List.mem_flatMap.1 he
    exact (hknown body hbody).edges e he

theorem transitions_keepsToKnown (ts : List Transition) {position : Nat} {a a' : Automaton}
    {r r' : StateRecord} (hn : es.names.Nodup)
    (h : (c.transitions setting s position a r ts).Yields es (a', r') es') :
    KeepsToKnown setting a es a' es' := by
  induction ts generalizing position a r es with
  | nil =>
    obtain ⟨⟨rfl, -⟩, rfl⟩ := yields_transitions_nil.1 h
    exact .of_edges rfl rfl
  | cons t ts ih =>
    obtain ⟨-, a₁, condition, es₁, hfirst, hrest⟩ := yields_transitions_cons.1 h
    have hkeeps := transition_keepsToKnown hn hfirst
    exact hkeeps.trans (ih (hkeeps.grows.nodup hn) hrest)

theorem allStates_keepsToKnown (ss : List State) {a a' : Automaton} {rs : List StateRecord}
    (hn : es.names.Nodup) (h : (c.allStates setting a ss).Yields es (a', rs) es') :
    KeepsToKnown setting a es a' es' := by
  induction ss generalizing a es rs with
  | nil =>
    obtain ⟨⟨rfl, -⟩, rfl⟩ := yields_allStates_nil.1 h
    exact .of_edges rfl rfl
  | cons s ss ih =>
    obtain ⟨a₁, r, es₁, rs', hfirst, hrest, -⟩ := yields_allStates_cons.1 h
    have hlocated : KeepsToKnown setting a es (a.addLocation s.id) es := .of_edges rfl rfl
    have hkeeps := hlocated.trans (transitions_keepsToKnown _ hn (yields_stateEdges.1 hfirst).1)
    exact hkeeps.trans (ih (hkeeps.grows.nodup hn) hrest)

/-- Loops assign nothing. -/
theorem loops_targets (records : List StateRecord) (P : String → Prop) :
    ∀ e ∈ loops records, e.Targets P := by
  intro e he
  obtain ⟨r, -, event, -, -, -, hdestinations⟩ := exists_of_mem_loops he
  intro d hd
  rw [hdestinations] at hd
  rw [List.mem_singleton.1 hd]
  simp

theorem start_keepsToKnown (hn : es.names.Nodup) (h : (c.start setting a).Yields es a' es') :
    KeepsToKnown setting a es a' es' := by
  obtain ⟨first, -, ⟨-, rfl, rfl⟩ | ⟨-, body, hbody, rfl⟩⟩ := yields_start.1 h
  · exact .of_edges rfl rfl
  · obtain ⟨hgrows, hknown⟩ := BodyScope.steps_known _ hn (by simp) hbody
    have hinitial : ∀ es l, KeepsToKnown setting a es (a.setInitial l) es :=
      fun es l => .of_edges rfl rfl
    exact (hinitial _ _).trans (.of_addEdges _ hn hgrows hknown.startingWith)

/-- **A compiled chart assigns to what is known to it.** -/
theorem compile_known (hn : es.names.Nodup) (h : (c.compile setting).Yields es a es') :
    es.Grows es' ∧ a.Measured ∧ (a.vars.map (·.name)).Nodup ∧ a.Targets (Knows setting a es') := by
  obtain ⟨-, -, a₀, a₁, records, es₁, hdata, hstates, hstart⟩ := yields_compile.1 h
  obtain ⟨hmeasured, hdistinct⟩ :=
    Automaton.measured_declareData _ hdata (by simp [Automaton.Measured]) (by simp)
  have hkeeps := allStates_keepsToKnown _ hn hstates
  have hloops : KeepsToKnown setting a₁ es₁
      (if c.isRoot then a₁ else a₁.addEdges (loops records)) es₁ := by
    split
    · exact .of_edges rfl rfl
    · exact .of_addEdges [] (hkeeps.grows.nodup hn) (.refl es₁) (loops_targets _ _)
  have hall := (hkeeps.trans hloops).trans (start_keepsToKnown (hkeeps.grows.nodup hn) hstart)
  have hempty : a₀.Targets (Knows setting a₀ es) := by
    simp [Automaton.Targets, (edges_of_declareData _ hdata).1]
  refine ⟨hall.grows, ?_, hall.vars ▸ hdistinct, hall.targets hempty⟩
  rw [Automaton.Measured, hall.vars]
  exact hmeasured

end Chart

end ChartNet
