import ChartNet.Proofs.Network.Extension

/-!
# The stages after the charts

What exactly each stage does to a model once its charts are compiled. Live events take the edges
that receive other events away; their variables are added behind those of the model; their buffers
become automata; the composition is completed with a vector for each action that has none; and the
draws of each automaton are expanded. Each stage has one equivalence that says when it succeeds and
with what, so two compilations can be compared stage by stage (`Descriptor.automata_connect` puts
the automata together).
-/

namespace ChartNet

/-! ### Live events -/

/-- The automaton without the edges of some actions. -/
def Automaton.without (actions : List String) (a : Automaton) : Automaton :=
  { a with edges := a.edges.filter fun e => actions.all fun x => e.action != some x }

@[simp] theorem Automaton.name_without (actions : List String) (a : Automaton) :
    (a.without actions).name = a.name := rfl

@[simp] theorem Automaton.vars_without (actions : List String) (a : Automaton) :
    (a.without actions).vars = a.vars := rfl

theorem Automaton.mem_edges_without {actions : List String} {a : Automaton} {e : Edge} :
    e ∈ (a.without actions).edges ↔ e ∈ a.edges ∧ ∀ x ∈ actions, e.action ≠ some x := by
  simp [without]

theorem Automaton.without_nil (a : Automaton) : a.without [] = a := by
  simp [without]

theorem Automaton.without_cons (x : String) (xs : List String) (a : Automaton) :
    a.without (x :: xs) = (a.removeAction x).without xs := by
  simp [without, removeAction, Bool.and_comm]

/-- The actions by which events are received that nobody sends. -/
def unsentActions (es : List Event) : List String :=
  (es.filter fun e => !e.hasSenders && e.hasReceivers).map fun e => receiveAction e.name

namespace Model

/-- The model without the edges of some actions. -/
def without (actions : List String) (m : Model) : Model :=
  { m with automata := m.automata.map (·.without actions) }

theorem yields_liveEvents (es : List Event) {m m' : Model} {live : List Event} :
    (liveEvents es).Yields m live m' ↔
      (∀ e ∈ es, e.hasSenders = false → e.hasReceivers = true → e.isRemovable = true) ∧
        live = es.filter (·.hasSenders) ∧ m' = m.without (unsentActions es) := by
  induction es generalizing m m' live with
  | nil => simp [liveEvents, unsentActions, without, Automaton.without_nil]
  | cons e es ih =>
    simp only [liveEvents, List.forall_mem_cons]
    cases hs : e.hasSenders with
    | true =>
      have hunsent : unsentActions (e :: es) = unsentActions es := by simp [unsentActions, hs]
      simp only [if_true, Build.yields_bind, Build.yields_pure, ih, hs, hunsent,
        List.filter_cons_of_pos]
      constructor
      · rintro ⟨rest, _, ⟨hremovable, rfl, rfl⟩, rfl, rfl⟩
        exact ⟨⟨by simp, hremovable⟩, rfl, rfl⟩
      · rintro ⟨⟨-, hremovable⟩, rfl, rfl⟩
        exact ⟨_, _, ⟨hremovable, rfl, rfl⟩, rfl, rfl⟩
    | false =>
      cases hr : e.hasReceivers with
      | false => simp [ih, hs, hr, unsentActions]
      | true =>
        cases hm : e.isRemovable with
        | false => simp [failModel]
        | true =>
          have hwithout : (m.removeAction (receiveAction e.name)).without (unsentActions es) =
              m.without (unsentActions (e :: es)) := by
            simp [without, removeAction, unsentActions, hs, hr, Automaton.without_cons,
              Function.comp_def]
          simp [ih, hs, hwithout]

/-! ### Variables of events -/

/-- The model with more global variables. -/
def withVars (vs : List Variable) (m : Model) : Model :=
  { m with vars := m.vars ++ vs }

theorem isGlobal_withVars (vs : List Variable) (m : Model) (x : String) :
    (m.withVars vs).isGlobal x = (m.isGlobal x || vs.any (·.name == x)) := by
  simp only [isGlobal, getVariable?, getConstant?, withVars, List.find?_append, Option.isSome_or,
    List.isSome_find?]
  exact Bool.or_right_comm _ _ _

theorem yields_addVariables (vs : List Variable) {m m' : Model} {u : Unit} :
    (addVariables vs).Yields m u m' ↔
      ((vs.map (·.name)).Nodup ∧ ∀ v ∈ vs, m.isGlobal v.name = false) ∧ m' = m.withVars vs := by
  induction vs generalizing m with
  | nil => simp [addVariables, withVars]
  | cons v vs ih =>
    have hfirst {m₁ : Model} :
        addVariable v m = .ok m₁ ↔ m.isGlobal v.name = false ∧ m₁ = m.withVars [v] :=
      addVariable_eq_ok
    have hwith : (m.withVars [v]).withVars vs = m.withVars (v :: vs) := by simp [withVars]
    simp only [addVariables, Build.yields_bind, Build.yields_change, hfirst, ih]
    constructor
    · rintro ⟨_, _, ⟨hnew, rfl⟩, ⟨hnodup, hothers⟩, rfl⟩
      simp only [isGlobal_withVars, List.any_cons, List.any_nil, Bool.or_false,
        Bool.or_eq_false_iff, beq_eq_false_iff_ne] at hothers
      refine ⟨⟨?_, ?_⟩, hwith⟩
      · refine List.nodup_cons.2 ⟨fun hmem => ?_, hnodup⟩
        obtain ⟨w, hw, hname⟩ := List.mem_map.1 hmem
        exact (hothers w hw).2 hname.symm
      · exact List.forall_mem_cons.2 ⟨hnew, fun w hw => (hothers w hw).1⟩
    · rintro ⟨⟨hnodup, hnew⟩, rfl⟩
      rw [List.forall_mem_cons] at hnew
      rw [List.map_cons, List.nodup_cons] at hnodup
      refine ⟨(), _, ⟨hnew.1, rfl⟩, ⟨hnodup.2, fun w hw => ?_⟩, hwith.symm⟩
      have hne : v.name ≠ w.name := fun heq => hnodup.1 (heq ▸ List.mem_map_of_mem hw)
      simp [isGlobal_withVars, hnew.2 w hw, hne]

theorem yields_addVariables_append (vs ws : List Variable) {m m' : Model} {u : Unit} :
    (addVariables (vs ++ ws)).Yields m u m' ↔
      ∃ m₁, (addVariables vs).Yields m () m₁ ∧ (addVariables ws).Yields m₁ u m' := by
  induction vs generalizing m with
  | nil => simp [addVariables]
  | cons v vs ih =>
    simp only [List.cons_append, addVariables, Build.yields_bind, ih]
    constructor
    · rintro ⟨u, m₁, hv, m₂, hvs, hws⟩
      exact ⟨m₂, ⟨u, m₁, hv, hvs⟩, hws⟩
    · rintro ⟨m₂, ⟨u, m₁, hv, hvs⟩, hws⟩
      exact ⟨u, m₁, hv, m₂, hvs, hws⟩

/-- The variables of events are those of each, one after the other. -/
theorem yields_addEventVariables (es : List Event) {m m' : Model} {u : Unit} :
    (addEventVariables es).Yields m u m' ↔
      ∃ vss, es.mapM Event.vars = .ok vss ∧ (addVariables vss.flatten).Yields m u m' := by
  simp only [Result.mapM_eq_ok]
  induction es generalizing m with
  | nil => simp [addEventVariables, addVariables]
  | cons e es ih =>
    simp only [addEventVariables, Build.yields_bind, Build.yields_ofResult, ih,
      List.forall₂_cons_left_iff]
    constructor
    · rintro ⟨vs, _, ⟨hvs, rfl⟩, _, m₁, hfirst, vss, hvss, hrest⟩
      exact ⟨_, ⟨vs, vss, hvs, hvss, rfl⟩, (yields_addVariables_append _ _).2 ⟨m₁, hfirst, hrest⟩⟩
    · rintro ⟨_, ⟨vs, vss, hvs, hvss, rfl⟩, h⟩
      obtain ⟨m₁, hfirst, hrest⟩ := (yields_addVariables_append vs vss.flatten).1 h
      exact ⟨vs, _, ⟨hvs, rfl⟩, (), m₁, hfirst, vss, hvss, hrest⟩

/-! ### Completing a composition -/

end Model

/-- The composition with a vector for each action of an automaton that has none. -/
def Composition.cover (c : Composition) (a : Automaton) : Result Composition :=
  (Model.uncovered c a).foldlM (fun c action => c.addSync action [(a.name, action)]) c

namespace Model

theorem yields_coverActions (automaton : String) (actions : List String) {m m' : Model} {u : Unit}
    {c : Composition} (hc : m.composition = some c) :
    (coverActions automaton actions).Yields m u m' ↔
      ∃ c', actions.foldlM (fun c action => c.addSync action [(automaton, action)]) c = .ok c' ∧
        m' = { m with composition := some c' } := by
  induction actions generalizing m c with
  | nil =>
    have hself : ({ m with composition := some c } : Model) = m := by rw [← hc]
    simp only [coverActions, Build.yields_pure, List.foldlM_nil]
    constructor
    · rintro ⟨-, rfl⟩
      exact ⟨c, rfl, hself.symm⟩
    · rintro ⟨_, ⟨⟩, rfl⟩
      exact ⟨trivial, hself⟩
  | cons action actions ih =>
    have hchange {m₁ : Model} : changeComposition (·.addSync action [(automaton, action)])
      m = .ok m₁ ↔
        ∃ c₁, c.addSync action [(automaton, action)] = .ok c₁ ∧
          m₁ = { m with composition := some c₁ } := by
      constructor
      · exact changeComposition_ok hc
      · rintro ⟨c₁, hadd, rfl⟩
        simp [changeComposition, requireComposition, hc, bind, Except.bind, pure, Except.pure, hadd]
    simp only [coverActions, Build.yields_bind, Build.yields_change, hchange, List.foldlM_cons,
      Result.bind_eq_ok]
    constructor
    · rintro ⟨_, _, ⟨c₁, hadd, rfl⟩, hrest⟩
      obtain ⟨c', hc', rfl⟩ := (ih rfl).1 hrest
      exact ⟨c', ⟨c₁, hadd, hc'⟩, rfl⟩
    · rintro ⟨c', ⟨c₁, hadd, hc'⟩, rfl⟩
      exact ⟨(), _, ⟨c₁, hadd, rfl⟩, (ih rfl).2 ⟨c', hc', rfl⟩⟩

theorem yields_coverAutomata (automata : List Automaton) {m m' : Model} {u : Unit}
    {c : Composition} (hc : m.composition = some c) :
    (coverAutomata automata).Yields m u m' ↔
      ∃ c', automata.foldlM Composition.cover c = .ok c' ∧
        m' = { m with composition := some c' } := by
  induction automata generalizing m c with
  | nil =>
    have hself : ({ m with composition := some c } : Model) = m := by rw [← hc]
    simp only [coverAutomata, Build.yields_pure, List.foldlM_nil]
    constructor
    · rintro ⟨-, rfl⟩
      exact ⟨c, rfl, hself.symm⟩
    · rintro ⟨_, ⟨⟩, rfl⟩
      exact ⟨trivial, hself⟩
  | cons a automata ih =>
    simp only [coverAutomata, Build.yields_bind, Build.yields_get, Build.yields_ofResult,
      requireComposition, List.foldlM_cons, Result.bind_eq_ok]
    constructor
    · rintro ⟨_, _, ⟨rfl, rfl⟩, c₀, _, ⟨hfound, rfl⟩, _, m₁, hcover, hrest⟩
      simp only [hc, Except.ok.injEq] at hfound
      obtain ⟨c₁, hc₁, rfl⟩ := (yields_coverActions _ _ hc).1 (hfound ▸ hcover)
      obtain ⟨c', hc', rfl⟩ := (ih rfl).1 hrest
      exact ⟨c', ⟨c₁, hc₁, hc'⟩, rfl⟩
    · rintro ⟨c', ⟨c₁, hc₁, hc'⟩, rfl⟩
      refine ⟨_, _, ⟨rfl, rfl⟩, c, _, ⟨by rw [hc], rfl⟩, (), _,
        (yields_coverActions _ _ hc).2 ⟨c₁, hc₁, rfl⟩, ?_⟩
      exact (ih rfl).2 ⟨c', hc', rfl⟩

/-- **Completing** the composition covers the automata one by one. -/
theorem yields_completeComposition {m m' : Model} {u : Unit} {c : Composition}
    (hc : m.composition = some c) :
    completeComposition.Yields m u m' ↔
      ∃ c', m.automata.foldlM Composition.cover c = .ok c' ∧
        m' = { m with composition := some c' } := by
  simp only [completeComposition, Build.yields_bind, Build.yields_get, Build.yields_ofResult,
    requireComposition]
  constructor
  · rintro ⟨_, _, ⟨rfl, rfl⟩, _, _, ⟨-, rfl⟩, h⟩
    exact (yields_coverAutomata _ hc).1 h
  · intro h
    exact ⟨_, _, ⟨rfl, rfl⟩, c, _, ⟨by rw [hc], rfl⟩, (yields_coverAutomata _ hc).2 h⟩

theorem yields_setComposition {m m' : Model} {u : Unit} {c : Composition} :
    (setComposition c).Yields m u m' ↔
      m.checkElements c = .ok () ∧ ∃ c', m.automata.foldlM Composition.cover c = .ok c' ∧
        m' = { m with composition := some c' } := by
  simp only [setComposition, Build.yields_bind, Build.yields_get, Build.yields_ofResult,
    Build.yields_modify]
  constructor
  · rintro ⟨_, _, ⟨rfl, rfl⟩, _, _, ⟨hcheck, rfl⟩, _, _, rfl, h⟩
    obtain ⟨c', hc', rfl⟩ := (yields_completeComposition rfl).1 h
    exact ⟨hcheck, c', hc', rfl⟩
  · rintro ⟨hcheck, c', hc', rfl⟩
    exact ⟨_, _, ⟨rfl, rfl⟩, (), _, ⟨hcheck, rfl⟩, (), _, rfl,
      (yields_completeComposition rfl).2 ⟨c', hc', rfl⟩⟩

/-! ### Buffers -/

end Model

theorem Composition.ofElements_eq_ok {elements : List String} {c : Composition} :
    ofElements elements = .ok c ↔ elements.Nodup ∧ c = { elements } := by
  suffices hfold : ∀ (elements : List String) {c c' : Composition},
      elements.foldlM addElement c = .ok c' ↔
        (elements.Nodup ∧ ∀ x ∈ elements, x ∉ c.elements) ∧
          c' = { c with elements := c.elements ++ elements } by
    simpa [ofElements] using @hfold elements {} c
  intro elements
  induction elements with
  | nil =>
    intro c c'
    simpa [pure, Except.pure] using eq_comm
  | cons x xs ih =>
    intro c c'
    have hadd {c₁ : Composition} : c.addElement x = .ok c₁ ↔
        x ∉ c.elements ∧ c₁ = { c with elements := c.elements ++ [x] } := by
      refine ⟨addElement_ok, ?_⟩
      rintro ⟨hnew, rfl⟩
      simp [addElement, hnew]
    simp only [List.foldlM_cons, Result.bind_eq_ok, hadd, ih, List.nodup_cons, List.forall_mem_cons]
    constructor
    · rintro ⟨_, ⟨hnew, rfl⟩, ⟨hnodup, hothers⟩, rfl⟩
      simp only [List.mem_append, List.mem_singleton, not_or] at hothers
      exact ⟨⟨⟨fun hx => (hothers x hx).2 rfl, hnodup⟩, hnew,
        fun y hy => (hothers y hy).1⟩, by simp⟩
    · rintro ⟨⟨⟨hx, hnodup⟩, hnew, hothers⟩, rfl⟩
      refine ⟨_, ⟨hnew, rfl⟩, ⟨hnodup, fun y hy => ?_⟩, by simp⟩
      simp only [List.mem_append, List.mem_singleton, not_or]
      exact ⟨hothers y hy, fun heq => hx (heq ▸ hy)⟩

namespace Model

/-- The model with the buffers of some events. -/
def withBuffers (live : List Event) (m : Model) : Model :=
  { m with automata := m.automata ++ live.map (·.buffer) }

theorem names_withBuffers (live : List Event) (m : Model) :
    (m.withBuffers live).names = m.names ++ live.map (·.name) := by
  simp [names, withBuffers, Function.comp_def]

theorem yields_addBuffers (live : List Event) {m m' : Model} {c c' : Composition} :
    (addBuffers c live).Yields m c' m' ↔
      ((live.map (·.name)).Nodup ∧ ∀ e ∈ live, e.name ∉ m.names) ∧
        live.foldlM Composition.addEvent c = .ok c' ∧ m' = m.withBuffers live := by
  induction live generalizing m c with
  | nil =>
    simp only [addBuffers, Build.yields_pure, List.foldlM_nil]
    constructor
    · rintro ⟨rfl, rfl⟩
      exact ⟨by simp, rfl, by simp [withBuffers]⟩
    · rintro ⟨-, ⟨⟩, rfl⟩
      exact ⟨rfl, by simp [withBuffers]⟩
  | cons e live ih =>
    have hadd {m₁ : Model} : addAutomaton e.buffer m = .ok m₁ ↔
        e.name ∉ m.names ∧ m₁ = m.withBuffers [e] := by
      rw [addAutomaton_eq_ok, e.name_buffer]
      rfl
    have hwith : (m.withBuffers [e]).withBuffers live = m.withBuffers (e :: live) := by
      simp [withBuffers]
    simp only [addBuffers, Build.yields_bind, Build.yields_change, Build.yields_ofResult, hadd, ih,
      List.foldlM_cons, Result.bind_eq_ok, List.map_cons, List.nodup_cons, List.forall_mem_cons]
    constructor
    · rintro ⟨_, _, ⟨hnew, rfl⟩, c₁, _, ⟨hc₁, rfl⟩, ⟨hnodup, hothers⟩, hc', rfl⟩
      -- the name of a buffer is taken once it was added, so later events must not have it
      simp only [names_withBuffers, List.map_cons, List.map_nil, List.mem_append,
        List.mem_singleton, not_or] at hothers
      refine ⟨⟨⟨fun hmem => ?_, hnodup⟩, hnew, fun x hx => (hothers x hx).1⟩, ⟨c₁, hc₁, hc'⟩, hwith⟩
      obtain ⟨x, hx, hname⟩ := List.mem_map.1 hmem
      exact (hothers x hx).2 hname
    · rintro ⟨⟨⟨hmem, hnodup⟩, hnew, hothers⟩, ⟨c₁, hc₁, hc'⟩, rfl⟩
      refine ⟨(), _, ⟨hnew, rfl⟩, c₁, _, ⟨hc₁, rfl⟩, ⟨hnodup, fun x hx => ?_⟩, hc', hwith.symm⟩
      simp only [names_withBuffers, List.map_cons, List.map_nil, List.mem_append,
        List.mem_singleton, not_or]
      exact ⟨hothers x hx, fun heq => hmem (heq ▸ List.mem_map_of_mem hx)⟩

/-- **Composing** events adds their buffers, and their vectors to the elements. -/
theorem yields_composeEvents {live : List Event} {m m' : Model} {c : Composition} :
    (composeEvents live).Yields m c m' ↔
      ((m.withBuffers live).names.Nodup ∧
        live.foldlM Composition.addEvent { elements := m.names } = .ok c) ∧
        m' = m.withBuffers live := by
  simp only [composeEvents, Build.yields_bind, Build.yields_get, Build.yields_ofResult,
    Composition.ofElements_eq_ok, yields_addBuffers, names_withBuffers, List.nodup_append]
  constructor
  · rintro ⟨_, _, ⟨rfl, rfl⟩, _, _, ⟨⟨hnames, rfl⟩, rfl⟩, ⟨hnodup, hnew⟩, hc, rfl⟩
    refine ⟨⟨⟨hnames, hnodup, ?_⟩, hc⟩, rfl⟩
    rintro x hx y hy rfl
    obtain ⟨e, he, rfl⟩ := List.mem_map.1 hy
    exact hnew e he hx
  · rintro ⟨⟨⟨hnames, hnodup, hnew⟩, hc⟩, rfl⟩
    exact ⟨_, _, ⟨rfl, rfl⟩, _, _, ⟨⟨hnames, rfl⟩, rfl⟩,
      ⟨hnodup, fun e he hmem => hnew _ hmem _ (List.mem_map_of_mem he) rfl⟩, hc, rfl⟩

end Model

/-! ### Draws -/

/-- An automaton **expands** to another one if it starts from no random value and its draws were
moved to edges of their own. -/
structure Automaton.ExpandsTo (n : Size) (a a' : Automaton) : Prop where
  inits : a.vars.forM (·.checkInit (some a.name)) = .ok ()
  draws : a.expandDraws n = .ok a'

namespace Model

/-- Names stay distinct, so an automaton is replaced in its place. -/
theorem replaceAutomaton_eq {m : Model} {done todo : List Automaton} {a a' : Automaton}
    (hm : m.automata = done ++ a :: todo) (hnodup : m.names.Nodup) (hname : a'.name = a.name) :
    m.replaceAutomaton a' = { m with automata := (done ++ [a']) ++ todo } := by
  rw [names, hm, List.map_append, List.map_cons, List.nodup_middle, List.nodup_cons,
    List.mem_append, not_or] at hnodup
  have hkeep : ∀ l : List Automaton, a.name ∉ l.map (·.name) →
      (l.map fun b => if b.name == a'.name then a' else b) = l := by
    intro l hl
    conv_rhs => rw [← List.map_id l]
    refine List.map_congr_left fun b hb => if_neg fun heq => hl ?_
    exact List.mem_map.2 ⟨b, hb, (beq_iff_eq.1 heq).trans hname⟩
  rw [replaceAutomaton, hm, List.map_append, List.map_cons, hkeep done hnodup.1.1,
    hkeep todo hnodup.1.2]
  simp [hname]

/-- An automaton is replaced by its expansion in its place. -/
theorem replaceAutomaton_of_expandDraws {n : Size} {m : Model} {done todo : List Automaton}
    {a a' : Automaton} (hm : m.automata = done ++ a :: todo) (hnodup : m.names.Nodup)
    (ha' : a.expandDraws n = .ok a') :
    m.replaceAutomaton a' = { m with automata := (done ++ [a']) ++ todo } ∧
      ({ m with automata := (done ++ [a']) ++ todo } : Model).names.Nodup := by
  have hname := (Automaton.expandDraws_ok ha').1
  refine ⟨replaceAutomaton_eq hm hnodup hname, ?_⟩
  rw [names, hm] at hnodup
  simpa [names, hname] using hnodup

theorem yields_expandAutomata {n : Size} (todo : List Automaton) {done : List Automaton}
    {m m' : Model} {u : Unit} (hm : m.automata = done ++ todo) (hnodup : m.names.Nodup) :
    (expandAutomata n todo).Yields m u m' ↔
      ∃ expanded, List.Forall₂ (Automaton.ExpandsTo n) todo expanded ∧
        m' = { m with automata := done ++ expanded } := by
  induction todo generalizing m done with
  | nil =>
    have hself : ({ m with automata := done } : Model) = m := by
      rw [List.append_nil] at hm
      rw [← hm]
    simp [expandAutomata, hself]
  | cons a todo ih =>
    rw [yields_expandAutomata_cons]
    simp only [List.forall₂_cons_left_iff]
    constructor
    · rintro ⟨hinits, a', hdraws, hrest⟩
      obtain ⟨heq, hnodup'⟩ := replaceAutomaton_of_expandDraws hm hnodup hdraws
      rw [heq] at hrest
      obtain ⟨expanded, hexpanded, rfl⟩ := (ih rfl hnodup').1 hrest
      exact ⟨_, ⟨a', expanded, ⟨hinits, hdraws⟩, hexpanded, rfl⟩, by simp⟩
    · rintro ⟨_, ⟨a', expanded, ⟨hinits, hdraws⟩, hexpanded, rfl⟩, rfl⟩
      obtain ⟨heq, hnodup'⟩ := replaceAutomaton_of_expandDraws hm hnodup hdraws
      refine ⟨hinits, a', hdraws, ?_⟩
      rw [heq]
      exact (ih rfl hnodup').2 ⟨expanded, hexpanded, by simp⟩

/-- **Expanding** a model expands its automata, whose new actions get vectors. -/
theorem yields_expandDraws_iff {n : Size} {m m' : Model} {u : Unit} {c : Composition}
    (hc : m.composition = some c) (hnodup : m.names.Nodup) :
    (expandDraws n).Yields m u m' ↔
      (n.isPositive = true ∧ m.vars.forM (·.checkInit none) = .ok ()) ∧
        ∃ expanded, List.Forall₂ (Automaton.ExpandsTo n) m.automata expanded ∧
          ∃ c', expanded.foldlM Composition.cover c = .ok c' ∧
            m' = { m with automata := expanded, composition := some c' } := by
  have hexpand {m₁ : Model} : (expandAutomata n m.automata).Yields m () m₁ ↔
      ∃ expanded, List.Forall₂ (Automaton.ExpandsTo n) m.automata expanded ∧
        m₁ = { m with automata := expanded } :=
    yields_expandAutomata _ (List.nil_append _).symm hnodup
  simp only [yields_expandDraws, hc, Option.isSome_some, if_true, hexpand]
  refine and_congr_right fun _ => ?_
  constructor
  · rintro ⟨_, ⟨expanded, hexpanded, rfl⟩, hcomplete⟩
    obtain ⟨c', hc', rfl⟩ := (yields_completeComposition rfl).1 hcomplete
    exact ⟨expanded, hexpanded, c', hc', rfl⟩
  · rintro ⟨expanded, hexpanded, c', hc', rfl⟩
    exact ⟨_, ⟨expanded, hexpanded, rfl⟩, (yields_completeComposition rfl).2 ⟨c', hc', rfl⟩⟩

/-! ### Properties -/

/-- Properties are added at the end; their names must be new. -/
theorem yields_addProperties (js : List Json) {m m' : Model} {u : Unit} :
    (Descriptor.addProperties js).Yields m u m' ↔
      ∃ ps, js.mapM Property.ofJson = .ok ps ∧
        ((ps.map (·.name)).Nodup ∧ ∀ p ∈ ps, p.name ∉ m.properties.map (·.name)) ∧
        m' = { m with properties := m.properties ++ ps } := by
  simp only [Result.mapM_eq_ok]
  induction js generalizing m with
  | nil => simp [Descriptor.addProperties]
  | cons j js ih =>
    simp only [Descriptor.addProperties, Build.yields_bind, Build.yields_ofResult,
      Build.yields_change, List.forall₂_cons_left_iff]
    constructor
    · rintro ⟨p, _, ⟨hp, rfl⟩, _, m₁, hchange, hrest⟩
      obtain ⟨hnew, rfl⟩ := addProperty_eq_ok.1 hchange
      obtain ⟨ps, hps, ⟨hnodup, hothers⟩, rfl⟩ := ih.1 hrest
      simp only [List.map_append, List.map_cons, List.map_nil, List.mem_append, List.mem_singleton,
        not_or] at hothers
      refine ⟨_, ⟨p, ps, hp, hps, rfl⟩, ⟨List.nodup_cons.2 ⟨fun hmem => ?_, hnodup⟩,
        List.forall_mem_cons.2 ⟨hnew, fun q hq => (hothers q hq).1⟩⟩, by simp⟩
      obtain ⟨q, hq, hname⟩ := List.mem_map.1 hmem
      exact (hothers q hq).2 hname
    · rintro ⟨_, ⟨p, ps, hp, hps, rfl⟩, ⟨hnodup, hnew⟩, rfl⟩
      rw [List.map_cons, List.nodup_cons] at hnodup
      rw [List.forall_mem_cons] at hnew
      refine ⟨p, _, ⟨hp, rfl⟩, (), _, addProperty_eq_ok.2 ⟨hnew.1, rfl⟩,
        ih.2 ⟨ps, hps, ⟨hnodup.2, fun q hq => ?_⟩, by simp⟩⟩
      simp only [List.map_append, List.map_cons, List.map_nil, List.mem_append, List.mem_singleton,
        not_or]
      exact ⟨hnew.2 q hq, fun heq => hnodup.1 (heq ▸ List.mem_map_of_mem hq)⟩

end Model

/-! ### All stages -/

namespace Descriptor

variable {d : Descriptor} {es : Events} {m m' : Model}

/-- The **composition** of a model: the one that is listed, or that of its events. -/
def compose (d : Descriptor) (live : List Event) : ModelM Composition :=
  match d.composition with
  | some l => .ofResult (Composition.ofListing l)
  | none => Model.composeEvents live

/-- The stages of connecting charts, one after the other. -/
theorem yields_connect :
    (d.connect es).Yields m () m' ↔
      ∃ live m₁ c m₂ m₃ m₄, (Model.declareEvents es).Yields m live m₁ ∧
        (d.compose live).Yields m₁ c m₂ ∧ (Model.setComposition c).Yields m₂ () m₃ ∧
        (Model.expandDraws d.randomOptions).Yields m₃ () m₄ ∧
        (addProperties d.properties).Yields m₄ () m' := by
  unfold connect compose
  cases d.composition <;>
  · simp only [Build.yields_bind]
    constructor
    · rintro ⟨live, m₁, hlive, c, m₂, hc, u, m₃, hset, u', m₄, hexpand, hproperties⟩
      exact ⟨live, m₁, c, m₂, m₃, m₄, hlive, hc, hset, hexpand, hproperties⟩
    · rintro ⟨live, m₁, c, m₂, m₃, m₄, hlive, hc, hset, hexpand, hproperties⟩
      exact ⟨live, m₁, hlive, c, m₂, hc, (), m₃, hset, (), m₄, hexpand, hproperties⟩

theorem yields_declareEvents {live : List Event} :
    (Model.declareEvents es).Yields m live m' ↔
      (∀ e ∈ es.all, e.hasSenders = false → e.hasReceivers = true → e.isRemovable = true) ∧
        live = es.all.filter (·.hasSenders) ∧
        ∃ vss, live.mapM Event.vars = .ok vss ∧
          (Model.addVariables vss.flatten).Yields (m.without (unsentActions es.all)) () m' := by
  simp only [Model.declareEvents, Build.yields_bind, Model.yields_liveEvents,
    Model.yields_addEventVariables, Build.yields_pure]
  constructor
  · rintro ⟨_, _, ⟨hremovable, rfl, rfl⟩, _, _, ⟨vss, hvss, hvars⟩, rfl, rfl⟩
    exact ⟨hremovable, rfl, vss, hvss, hvars⟩
  · rintro ⟨hremovable, rfl, vss, hvss, hvars⟩
    exact ⟨_, _, ⟨hremovable, rfl, rfl⟩, (), _, ⟨vss, hvss, hvars⟩, rfl, rfl⟩

/-- **Connecting charts takes edges away, adds buffers, and expands the automata** that are there
then. -/
theorem automata_connect (hnodup : m.names.Nodup) (h : (d.connect es).Yields m () m') :
    ∃ buffers : List Event, List.Forall₂ (Automaton.ExpandsTo d.randomOptions)
      (m.automata.map (·.without (unsentActions es.all)) ++ buffers.map (·.buffer))
        m'.automata := by
  obtain ⟨live, m₁, c, m₂, m₃, m₄, hdeclare, hcompose, hset, hexpand, hproperties⟩ :=
    yields_connect.1 h
  obtain ⟨-, -, vss, -, hvars⟩ := yields_declareEvents.1 hdeclare
  obtain ⟨-, rfl⟩ := (Model.yields_addVariables _).1 hvars
  have hbuffered : ∃ buffers : List Event, m₂.names.Nodup ∧ m₂.automata =
      m.automata.map (·.without (unsentActions es.all)) ++ buffers.map (·.buffer) := by
    unfold compose at hcompose
    split at hcompose
    · obtain ⟨-, rfl⟩ := Build.yields_ofResult.1 hcompose
      refine ⟨[], ?_, by simp [Model.withVars, Model.without]⟩
      simpa [Model.names, Model.withVars, Model.without, Function.comp_def] using hnodup
    · obtain ⟨⟨hnames, -⟩, rfl⟩ := Model.yields_composeEvents.1 hcompose
      exact ⟨live, hnames, rfl⟩
  obtain ⟨buffers, hnames, hautomata⟩ := hbuffered
  obtain ⟨-, c₁, -, rfl⟩ := Model.yields_setComposition.1 hset
  have hnames' : ({ m₂ with composition := some c₁ } : Model).names.Nodup := hnames
  obtain ⟨-, expanded, hexpanded, c₂, -, rfl⟩ :=
    (Model.yields_expandDraws_iff (c := c₁) rfl hnames').1 hexpand
  obtain ⟨ps, -, -, rfl⟩ := (Model.yields_addProperties _).1 hproperties
  exact ⟨buffers, hautomata ▸ hexpanded⟩

end Descriptor

end ChartNet
