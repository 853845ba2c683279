import ChartNet.Proofs.Network.Wiring
import ChartNet.Proofs.Random.Outcomes

/-!
# Expansion of connected models

Moving random assignments to edges of their own adds edges without an action and edges that go on
after a draw. Neither delivers an event, and the edges of buffers assign nothing, so a connected
model stays **connected**: the vectors that it lacks afterwards are those of quiet actions again.
-/

namespace ChartNet

/-! ### Edges -/

theorem not_isDelivery_continuationAction : ¬ IsDelivery continuationAction := by
  have hsuffix : ∀ event suffix : String, 3 < suffix.length →
    continuationAction ≠ event ++ suffix := by
    intro event suffix hlong heq
    have hlength : (3 : Nat) = event.length + suffix.length := by
      rw [← String.length_append, ← heq]
      decide
    omega
  rintro ⟨event, h | h⟩
  · exact hsuffix event "_on_send" (by decide) h
  · exact hsuffix event "_on_receive" (by decide) h

/-- An edge becomes one of its own action and edges of draws. -/
theorem Edge.action_expandDraws {n : Size} {e : Edge} {id : String} {es : List Edge}
    (h : e.expandDraws n id = .ok es) : ∀ e' ∈ es,
      e'.action = e.action ∨ e'.action = none ∨ e'.action = some continuationAction := by
  intro e' he'
  cases expandsInto_of_mem h e' he' with
  | kept => exact .inl rfl
  | own => exact .inl rfl
  | draw => exact .inr (.inl rfl)
  | continuation => exact .inr (.inr rfl)

/-- An edge without assignments stays as it is. -/
theorem Edge.expandDraws_of_unassigned {n : Size} {e : Edge} {id : String}
    (h : ∀ d ∈ e.destinations, d.assignments = []) : e.expandDraws n id = .ok [e] := by
  unfold expandDraws
  split
  · rfl
  · have hparts : (e.destinations.zipIdx).mapM (fun x => e.expandDestination n id x.2 x.1) =
        .ok (e.destinations.map fun d => (d, [])) := by
      rw [Result.mapM_eq_ok, List.forall₂_iff_get]
      refine ⟨by simp, fun k hk hk' => ?_⟩
      have hk : k < e.destinations.length := by simpa using hk
      have hmem : e.destinations[k] ∈ e.destinations := List.getElem_mem hk
      simp only [List.get_eq_getElem, List.getElem_zipIdx, List.getElem_map, expandDestination,
        h _ hmem]
      rfl
    rw [hparts]
    simp [bind, Except.bind, pure, Except.pure, List.map_map, Function.comp_def]

/-! ### Automata -/

theorem Automaton.vars_of_expandDraws {n : Size} {a a' : Automaton} (h : a.expandDraws n = .ok a') :
    a'.vars = a.vars := by
  obtain ⟨edges, -, heq⟩ := Result.bind_eq_ok.1 h
  cases heq
  simp [replaceEdges]

/-- Each edge of an expanded automaton is one of those that some edge becomes. -/
theorem Automaton.exists_of_mem_expandDraws {n : Size} {a a' : Automaton}
    (h : a.expandDraws n = .ok a') {e' : Edge} (he' : e' ∈ a'.edges) :
    ∃ e ∈ a.edges, ∃ id es, e.expandDraws n id = .ok es ∧ e' ∈ es := by
  simp only [expandDraws, Result.bind_eq_ok] at h
  obtain ⟨parts, hparts, ha'⟩ := h
  cases ha'
  simp only [replaceEdges, edges_addEdges, List.nil_append] at he'
  obtain ⟨es, hes, he'⟩ := List.mem_flatten.1 he'
  obtain ⟨⟨e, id⟩, hmem, hexpand⟩ := exists_of_mem_forall₂ (Result.mapM_eq_ok.1 hparts) hes
  exact ⟨e, (List.of_mem_zip hmem).1, id, es, hexpand, he'⟩

/-- An automaton keeps its name and its initial location, and delivers nothing else afterwards. -/
theorem Automaton.expandDraws_ok {n : Size} {a a' : Automaton} (h : a.expandDraws n = .ok a') :
    a'.name = a.name ∧ a'.initial = a.initial ∧ ∀ e' ∈ a'.edges,
      (∃ e ∈ a.edges, e'.action = e.action) ∨ e'.action = none ∨
        e'.action = some continuationAction := by
  have hedges : ∀ e' ∈ a'.edges, (∃ e ∈ a.edges, e'.action = e.action) ∨ e'.action = none ∨
      e'.action = some continuationAction := by
    intro e' he'
    obtain ⟨e, he, id, es, hes, hmem⟩ := exists_of_mem_expandDraws h he'
    exact (Edge.action_expandDraws hes e' hmem).imp_left fun heq => ⟨e, he, heq⟩
  obtain ⟨edges, -, ha'⟩ := Result.bind_eq_ok.1 h
  cases ha'
  exact ⟨by simp [replaceEdges], by simp [replaceEdges], hedges⟩

/-- An automaton that assigns nothing keeps its edges. -/
theorem Automaton.edges_expandDraws_of_unassigned {n : Size} {a a' : Automaton}
    (h : a.expandDraws n = .ok a') (hedges : ∀ e ∈ a.edges, ∀ d ∈ e.destinations,
      d.assignments = []) :
    a'.edges = a.edges := by
  have hparts : (a.edges.zip (edgeIds a.edges)).mapM (fun x => x.1.expandDraws n x.2) =
      .ok (a.edges.map ([·])) := by
    rw [Result.mapM_eq_ok, List.forall₂_iff_get]
    refine ⟨by simp [edgeIds, numberRepeated], fun k hk hk' => ?_⟩
    simp only [List.get_eq_getElem, List.getElem_zip, List.getElem_map]
    exact Edge.expandDraws_of_unassigned (hedges _ (List.getElem_mem _))
  simp only [expandDraws, hparts, bind, Except.bind] at h
  rw [← Except.ok.inj h]
  simp [replaceEdges, ← List.flatMap_def]

/-- What fits live events still does after its draws were expanded. -/
theorem Automaton.Fits.expandDraws {live : List Event} {n : Size} {a a' : Automaton}
    (ha : a.Fits live) (h : a.expandDraws n = .ok a') : a'.Fits live := by
  obtain ⟨hname, hinitial, hedges⟩ := Automaton.expandDraws_ok h
  rcases ha with ⟨e, he, hbuffer, hbufferEdges, hempty⟩ | ⟨hother, hwired⟩
  · refine .inl ⟨e, he, hname.trans hbuffer, ?_, hinitial.trans hempty⟩
    rw [Automaton.edges_expandDraws_of_unassigned h, hbufferEdges]
    rw [hbufferEdges, Event.edges_buffer]
    split <;> simp
  · refine .inr ⟨hname ▸ hother, fun e' he' role event haction => ?_⟩
    rw [hname]
    rcases hedges e' he' with ⟨e, he, hsame⟩ | hnone | hact
    · exact hwired e he role event (hsame ▸ haction)
    · rw [hnone] at haction
      cases haction
    · have heq := Option.some.inj (hact.symm.trans haction)
      exact absurd (heq ▸ role.isDelivery event) not_isDelivery_continuationAction

/-! ### Models -/

namespace Model

variable {live : List Event}

/-- Automata may be replaced by others of the same name that fit. -/
theorem Connected.replaceAutomaton {m : Model} (hm : m.Connected live) {a : Automaton}
    (ha : a.Fits live) : (m.replaceAutomaton a).Connected live := by
  obtain ⟨c, hc, hwired⟩ := hm
  have hnames : (m.replaceAutomaton a).names = m.names := by
    simp only [names, Model.replaceAutomaton, List.map_map]
    refine List.map_congr_left fun b _ => ?_
    by_cases hb : b.name = a.name <;> simp [hb]
  refine ⟨c, hc, { hwired with nodup := ?_, fits := ?_, buffers := ?_ }⟩
  · rw [hnames]
    exact hwired.nodup
  · intro b' hb'
    obtain ⟨b, hb, rfl⟩ := List.mem_map.1 hb'
    split
    · exact ha
    · exact hwired.fits b hb
  · rw [hnames]
    exact hwired.buffers

theorem yields_expandAutomata_nil {n : Size} {m m' : Model} {u : Unit} :
    (expandAutomata n []).Yields m u m' ↔ m' = m := by
  simp [expandAutomata]

/-- Automata are expanded one by one, each after its initial values were checked. -/
theorem yields_expandAutomata_cons {n : Size} {a : Automaton} {rest : List Automaton}
    {m m' : Model} {u : Unit} :
    (expandAutomata n (a :: rest)).Yields m u m' ↔
      a.vars.forM (·.checkInit (some a.name)) = .ok () ∧ ∃ a', a.expandDraws n = .ok a' ∧
        (expandAutomata n rest).Yields (m.replaceAutomaton a') u m' := by
  simp only [expandAutomata, Build.yields_bind, Build.yields_ofResult, Build.yields_modify]
  constructor
  · rintro ⟨_, _, ⟨hinits, rfl⟩, a', _, ⟨hexpand, rfl⟩, _, _, rfl, hrest⟩
    exact ⟨hinits, a', hexpand, hrest⟩
  · rintro ⟨hinits, a', hexpand, hrest⟩
    exact ⟨(), _, ⟨hinits, rfl⟩, a', _, ⟨hexpand, rfl⟩, (), _, rfl, hrest⟩

/-- Expanding automata one by one keeps a model connected. -/
theorem connected_expandAutomata (n : Size) (automata : List Automaton) {m m' : Model} {u : Unit}
    (h : (expandAutomata n automata).Yields m u m') (hm : m.Connected live)
    (hfits : ∀ a ∈ automata, a.Fits live) : m'.Connected live := by
  induction automata generalizing m with
  | nil =>
    obtain rfl := yields_expandAutomata_nil.1 h
    exact hm
  | cons a automata ih =>
    obtain ⟨-, a', hexpand, hrest⟩ := yields_expandAutomata_cons.1 h
    rw [List.forall_mem_cons] at hfits
    exact ih hrest (hm.replaceAutomaton (hfits.1.expandDraws hexpand)) hfits.2

/-- Expanding random assignments expands each automaton and completes the composition again, if
there is one; the number of options must be positive and no global variable drawn. -/
theorem yields_expandDraws {n : Size} {m m' : Model} {u : Unit} :
    (expandDraws n).Yields m u m' ↔
      (n.isPositive = true ∧ m.vars.forM (·.checkInit none) = .ok ()) ∧
        ∃ m₁, (expandAutomata n m.automata).Yields m () m₁ ∧
          (if m.composition.isSome then completeComposition else pure ()).Yields m₁ u m' := by
  unfold expandDraws
  cases hn : n.isPositive with
  | false => simp [failModel]
  | true =>
    simp only [Bool.not_true, Bool.false_eq_true, if_false, Build.yields_bind, Build.yields_get,
      Build.yields_ofResult, true_and]
    constructor
    · rintro ⟨_, _, ⟨rfl, rfl⟩, _, _, ⟨hinits, rfl⟩, _, m₁, hexpand, hcomplete⟩
      exact ⟨hinits, m₁, hexpand, hcomplete⟩
    · rintro ⟨hinits, m₁, hexpand, hcomplete⟩
      exact ⟨_, _, ⟨rfl, rfl⟩, (), _, ⟨hinits, rfl⟩, (), m₁, hexpand, hcomplete⟩

/-- A model with a composition is completed when it is expanded. -/
theorem yields_expandDraws_of_some {n : Size} {m m' : Model} {u : Unit} {c : Composition}
    (h : (expandDraws n).Yields m u m') (hc : m.composition = some c) :
    ∃ m₁, (expandAutomata n m.automata).Yields m () m₁ ∧ completeComposition.Yields m₁ u m' := by
  obtain ⟨-, m₁, hexpand, hcomplete⟩ := yields_expandDraws.1 h
  rw [hc] at hcomplete
  exact ⟨m₁, hexpand, hcomplete⟩

/-- **Expanding random assignments keeps a model connected.** -/
theorem connected_expandDraws {n : Size} {m m' : Model} {u : Unit}
    (h : (expandDraws n).Yields m u m') (hm : m.Connected live) : m'.Connected live := by
  obtain ⟨c, hc, hwired⟩ := hm
  obtain ⟨m₁, hexpand, hcomplete⟩ := yields_expandDraws_of_some h hc
  have hm₁ := connected_expandAutomata n _ hexpand ⟨c, hc, hwired⟩ hwired.fits
  exact (connected_completeComposition hcomplete hm₁).1

end Model

end ChartNet
