import ChartNet.Proofs.Chart.Targets
import ChartNet.Proofs.Network.Origin
import ChartNet.Proofs.Random.Outcomes

/-!
# Models that build on others

Once the charts of a model are compiled, the model is only **built on**: its globals stay and get
distinct company, and no automaton assigns to anything that one of them did not before. What draws
and buffers add assigns to nothing new.
-/

namespace ChartNet

open Build

/-! ### Expanding keeps targets -/

section Expansion

variable {P : String → Prop} {n : Size}

/-- The edges that an edge becomes have its targets. -/
theorem Edge.Targets.expandDraws {e : Edge} {id : String} {es : List Edge} (h : e.Targets P)
    (hes : e.expandDraws n id = .ok es) : ∀ e' ∈ es, e'.Targets P := by
  intro e' he'
  cases expandsInto_of_mem hes e' he' with
  | kept => exact h
  | own _ hds =>
    intro d' hd' a ha
    obtain ⟨d, hd, -, hassignments⟩ := hds d' hd'
    rw [hassignments] at ha
    exact h d hd a ((settled_sublist _).subset ha)
  | @draw d a hd ha =>
    refine List.forall_mem_map.2 fun value _ => List.forall_mem_singleton.2 ?_
    exact h d hd a ha
  | @continuation d rest hd hrest =>
    refine List.forall_mem_singleton.2 fun a ha => ?_
    exact h d hd a (hrest.subset ((settled_sublist _).subset ha))

end Expansion

namespace Model

/-! ### Building on a model -/

/-- The names of the global variables and constants. -/
def globals (m : Model) : List String :=
  m.vars.map (·.name) ++ m.constants.map (·.name)

theorem isGlobal_eq_false {m : Model} {x : String} : m.isGlobal x = false ↔ x ∉ m.globals := by
  simp [globals, isGlobal, getVariable?, getConstant?]

/-- A model **builds on** another: it has its globals and maybe more variables, all with distinct
names, and none of its automata assigns to anything that one of the other does not. -/
structure BuildsOn (m m' : Model) : Prop where
  vars : m.vars <+: m'.vars
  constants : m'.constants = m.constants
  distinct : m.globals.Nodup → m'.globals.Nodup
  automata : ∀ a' ∈ m'.automata, (∀ P, a'.Targets P) ∨
    ∃ a ∈ m.automata, a'.vars = a.vars ∧ ∀ P, a.Targets P → a'.Targets P

variable {m m' m'' : Model}

/-- The composition and the properties do not count. -/
theorem BuildsOn.of_eq (hvars : m'.vars = m.vars) (hconstants : m'.constants = m.constants)
    (hautomata : m'.automata = m.automata) : m.BuildsOn m' where
  vars := hvars ▸ List.prefix_rfl
  constants := hconstants
  distinct hn := by rwa [globals, hvars, hconstants]
  automata a' ha' := .inr ⟨a', hautomata ▸ ha', rfl, fun _ => id⟩

theorem BuildsOn.trans (h : m.BuildsOn m') (h' : m'.BuildsOn m'') : m.BuildsOn m'' where
  vars := h.vars.trans h'.vars
  constants := h'.constants.trans h.constants
  distinct hn := h'.distinct (h.distinct hn)
  automata a'' ha'' := by
    rcases h'.automata a'' ha'' with hnone | ⟨a', ha', hvars', htargets'⟩
    · exact .inl hnone
    · rcases h.automata a' ha' with hnone | ⟨a, ha, hvars, htargets⟩
      · exact .inl fun P => htargets' P (hnone P)
      · exact .inr ⟨a, ha, hvars'.trans hvars, fun P hP => htargets' P (htargets P hP)⟩

instance : IsPreorder Model BuildsOn where
  refl _ := .of_eq rfl rfl rfl
  trans _ _ _ := .trans

/-! ### The parts of a build -/

theorem extends_addVariable (v : Variable) : Follows BuildsOn (change (addVariable v)) := by
  refine .of_change fun {m m'} h => ?_
  obtain ⟨hnew, rfl⟩ := addVariable_eq_ok.1 h
  refine ⟨List.prefix_append _ _, rfl, fun hn => ?_, fun a ha => .inr ⟨a, ha, rfl, fun _ => id⟩⟩
  have hperm : (m.globals ++ [v.name]).Perm
      (({ m with vars := m.vars ++ [v] } : Model).globals) := by
    simp only [globals, List.map_append, List.map_cons, List.map_nil, List.append_assoc]
    exact List.perm_append_comm.append_left _
  rw [← hperm.nodup_iff]
  simpa using hn.concat (isGlobal_eq_false.1 hnew)

theorem extends_addVariables (vs : List Variable) : Follows BuildsOn (addVariables vs) := by
  induction vs with
  | nil => exact .pure ()
  | cons v vs ih => exact .bind (extends_addVariable v) fun _ => ih

theorem extends_addEventVariables (es : List Event) :
    Follows BuildsOn (addEventVariables es) := by
  induction es with
  | nil => exact .pure ()
  | cons e es ih =>
    exact .bind (.ofResult _) fun _ => .bind (extends_addVariables _) fun _ => ih

theorem extends_liveEvents (es : List Event) : Follows BuildsOn (liveEvents es) := by
  have hremove : ∀ action : String, Follows BuildsOn (modify (·.removeAction action)) := by
    refine fun action => .of_modify fun m => ⟨List.prefix_rfl, rfl, id, fun a' ha' => ?_⟩
    obtain ⟨a, ha, rfl⟩ := List.mem_map.1 ha'
    exact .inr ⟨a, ha, rfl, fun P hP e he => hP e (List.mem_of_mem_filter he)⟩
  induction es with
  | nil => exact .pure _
  | cons e es ih =>
    unfold liveEvents
    split
    · exact .bind ih fun _ => .pure _
    · split
      · split
        · exact .bind (hremove _) fun _ => ih
        · exact .ofResult _
      · exact ih

/-- The buffer of an event assigns nothing. -/
theorem targets_buffer (e : Event) (P : String → Prop) : e.buffer.Targets P := by
  rw [Automaton.Targets, Event.edges_buffer]
  split <;> simp [Edge.Targets]

theorem extends_addBuffers (live : List Event) (c : Composition) :
    Follows BuildsOn (addBuffers c live) := by
  induction live generalizing c with
  | nil => exact .pure _
  | cons e live ih =>
    refine .bind (.of_change fun {m m'} h => ?_) fun _ => .bind (.ofResult _) fun _ => ih _
    obtain ⟨-, rfl⟩ := addAutomaton_ok h
    refine ⟨List.prefix_rfl, rfl, id, fun a' ha' => ?_⟩
    rcases List.mem_append.1 ha' with ha' | ha'
    · exact .inr ⟨a', ha', rfl, fun _ => id⟩
    · exact .inl fun P => List.mem_singleton.1 ha' ▸ targets_buffer e P

theorem extends_completeComposition : Follows BuildsOn completeComposition := by
  have hcover : ∀ (automaton : String) (actions : List String),
      Follows BuildsOn (coverActions automaton actions) := by
    intro automaton actions
    induction actions with
    | nil => exact .pure ()
    | cons action rest ih =>
      refine .bind (.of_change fun {m m'} h => ?_) fun _ => ih
      simp only [changeComposition, Result.bind_eq_ok] at h
      obtain ⟨_, -, _, -, heq⟩ := h
      cases heq
      exact .of_eq rfl rfl rfl
  have hautomata : ∀ automata : List Automaton, Follows BuildsOn (coverAutomata automata) := by
    intro automata
    induction automata with
    | nil => exact .pure ()
    | cons a rest ih =>
      exact .bind .get fun _ => .bind (.ofResult _) fun _ => .bind (hcover _ _) fun _ => ih
  exact .bind .get fun _ => .bind (.ofResult _) fun _ => hautomata _

theorem extends_setComposition (c : Composition) : Follows BuildsOn (setComposition c) :=
  .bind .get fun _ => .bind (.ofResult _) fun _ =>
    .bind (.of_modify fun _ => .of_eq rfl rfl rfl) fun _ => extends_completeComposition

/-- Expanding the automata of a model replaces each by its expansion. -/
theorem buildsOn_expandAutomata {n : Size} {m m' : Model} {u : Unit}
    (h : (expandAutomata n m.automata).Yields m u m') : m.BuildsOn m' := by
  have hglobals : ∀ (automata : List Automaton) {m : Model},
      (expandAutomata n automata).Yields m u m' →
      m'.vars = m.vars ∧ m'.constants = m.constants := by
    intro automata
    induction automata with
    | nil =>
      intro m h
      obtain rfl := yields_expandAutomata_nil.1 h
      exact ⟨rfl, rfl⟩
    | cons a rest ih =>
      intro m h
      obtain ⟨-, a', -, hrest⟩ := yields_expandAutomata_cons.1 h
      exact (ih hrest : _)
  obtain ⟨hvars, hconstants⟩ := hglobals _ h
  have hexpanded := expanded_expandAutomata m.automata h (fun _ h => h)
    fun b hb => .inr (List.mem_map_of_mem hb)
  refine ⟨hvars ▸ List.prefix_rfl, hconstants, fun hn => ?_, fun a' ha' => ?_⟩
  · rwa [globals, hvars, hconstants]
  · obtain ⟨a, ha, hexpand⟩ := hexpanded a' ha'
    refine .inr ⟨a, ha, Automaton.vars_of_expandDraws hexpand, fun P hP e' he' => ?_⟩
    obtain ⟨e, he, id, es, hes, hmem⟩ := Automaton.exists_of_mem_expandDraws hexpand he'
    exact (hP e he).expandDraws hes e' hmem

theorem extends_expandDraws (n : Size) : Follows BuildsOn (expandDraws n) := by
  -- the automata that are expanded are those of the model, so what is read matters here
  intro m u m' h
  obtain ⟨-, m₁, hexpand, hcomplete⟩ := yields_expandDraws.1 h
  refine (buildsOn_expandAutomata hexpand).trans ?_
  split at hcomplete
  · exact extends_completeComposition hcomplete
  · exact Follows.pure () hcomplete

theorem extends_addProperties (js : List Json) :
    Follows BuildsOn (Descriptor.addProperties js) := by
  induction js with
  | nil => exact .pure ()
  | cons j js ih =>
    refine .bind (.ofResult _) fun _ => .bind (.of_change fun {m m'} h => ?_) fun _ => ih
    obtain ⟨-, rfl⟩ := addProperty_eq_ok.1 h
    exact .of_eq rfl rfl rfl

/-! ### Variables of events -/

section Declared

variable {u : Unit}

theorem mem_vars_of_addVariables (vs : List Variable) (h : (addVariables vs).Yields m u m') :
    ∀ v ∈ vs, v ∈ m'.vars := by
  induction vs generalizing m with
  | nil => simp
  | cons v vs ih =>
    obtain ⟨_, m₁, hfirst, hrest⟩ := Build.yields_bind.1 h
    refine List.forall_mem_cons.2 ⟨?_, ih hrest⟩
    obtain ⟨-, rfl⟩ := addVariable_eq_ok.1 (Build.yields_change.1 hfirst)
    exact (extends_addVariables vs hrest).vars.subset (by simp)

/-- All variables of events are declared with them. -/
theorem mem_vars_of_addEventVariables (es : List Event) (h : (addEventVariables es).Yields m u m') :
    ∀ e ∈ es, ∃ vs, e.vars = .ok vs ∧ ∀ v ∈ vs, v ∈ m'.vars := by
  induction es generalizing m with
  | nil => simp
  | cons e es ih =>
    simp only [addEventVariables, Build.yields_bind, Build.yields_ofResult] at h
    obtain ⟨vs, _, ⟨hvs, rfl⟩, _, m₁, hfirst, hrest⟩ := h
    refine List.forall_mem_cons.2 ⟨⟨vs, hvs, fun v hv => ?_⟩, ih hrest⟩
    exact (extends_addEventVariables es hrest).vars.subset (mem_vars_of_addVariables vs hfirst v hv)

end Declared

end Model

/-- **Connecting charts** builds on the model, and declares the variables of all events that
somebody sends. -/
theorem Descriptor.buildsOn_connect {d : Descriptor} {es : Events} {m m' : Model}
    (h : (d.connect es).Yields m () m') :
    m.BuildsOn m' ∧
      ∀ e ∈ es.all, e.hasSenders → ∃ vs, e.vars = .ok vs ∧ ∀ v ∈ vs, v ∈ m'.vars := by
  have hfinish : ∀ c : Composition, Follows Model.BuildsOn (do
      Model.setComposition c
      Model.expandDraws d.randomOptions
      addProperties d.properties) := fun c =>
    .bind (Model.extends_setComposition c) fun _ =>
      .bind (Model.extends_expandDraws _) fun _ => Model.extends_addProperties _
  obtain ⟨live, m₁, hdeclare, hrest⟩ := Build.yields_bind.1 h
  have hbuilds : m₁.BuildsOn m' := by
    cases hcomposition : d.composition with
    | none =>
      rw [hcomposition] at hrest
      exact (Follows.bind (.bind .get fun _ => .bind (.ofResult _) fun _ =>
        Model.extends_addBuffers _ _) hfinish hrest : _)
    | some l =>
      rw [hcomposition] at hrest
      exact (Follows.bind (.ofResult _) hfinish hrest : _)
  simp only [Model.declareEvents, Build.yields_bind, Build.yields_pure] at hdeclare
  obtain ⟨found, m₂, hlive, _, _, hvars, rfl, rfl⟩ := hdeclare
  refine ⟨((Model.extends_liveEvents _ hlive).trans
    (Model.extends_addEventVariables _ hvars)).trans hbuilds, fun e he hsent => ?_⟩
  obtain ⟨vs, hvs, hmem⟩ := Model.mem_vars_of_addEventVariables _ hvars e (by
    rw [(Model.liveEvents_spec _ hlive).1]
    exact List.mem_filter.2 ⟨he, hsent⟩)
  exact ⟨vs, hvs, fun v hv => hbuilds.vars.subset (hmem v hv)⟩

end ChartNet
