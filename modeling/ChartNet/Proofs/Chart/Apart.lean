import ChartNet.Proofs.Chart.Sites

/-!
# Bodies keep apart

The locations that bodies add are named by the location from which the body leaves and by a digest,
so whether two bodies of a chart share a location is a matter of these names. The **key** of a site
is what goes into its digest: the state, the event and the text of the condition of the transition,
the target, and the printed probability of the targets up to it. If the digests of a chart differ
wherever their parts do, and no state has the form of a generated name, then bodies with different
keys have no location in common, and an edge that leaves from a location of a body belongs to a body
with the same key (`Chart.compile_apart`).

Nothing keeps two transitions of a state from having the same key. Where two agree in event,
condition and target, their bodies share a location, and the first transition may go on with the
steps of the second (`Chart.compile_shares_location_of_twins`).
-/

namespace ChartNet

namespace Site

/-- The **key** of a site; the start has none. -/
def key : Site → Option (String × Option String × Option String × String × String)
  | target s t w total => some (s.id, t.event, t.cond, w.target.target, Number.text total)
  | start _ => none

private theorem conditionPart_injective : Function.Injective Chart.conditionPart := by
  intro cond cond' h
  cases cond <;> cases cond' <;> simp_all [Chart.conditionPart]

/-- The action of a transition tells its event. -/
private theorem event_eq_of_transitionAction {id id' : String} {t t' : Transition}
    (h : Chart.transitionAction id t = Chart.transitionAction id' t') : t.event = t'.event := by
  cases hevent : t.event with
  | none =>
    cases hevent' : t'.event with
    | none => rfl
    | some event =>
      rw [Chart.transitionAction_eq_iff.2 hevent', Chart.transitionAction_eq_iff, hevent] at h
      cases h
  | some event =>
    rw [Chart.transitionAction_eq_iff.2 hevent, eq_comm, Chart.transitionAction_eq_iff] at h
    exact h.symm

/-- Sites with the same parts have the **same key**. -/
theorem key_eq_of_parts_eq {p q : Site} (h : p.parts = q.parts) : p.key = q.key := by
  cases p <;> cases q
  · simp only [parts, List.cons.injEq, Json.str.injEq, and_true] at h
    obtain ⟨hid, htarget, haction, hcond, htotal⟩ := h
    simp [key, hid, htarget, htotal, conditionPart_injective hcond,
      event_eq_of_transitionAction haction]
  · simp [parts] at h
  · simp [parts] at h
  · rfl

/-! ### Locations of bodies -/

/-- A location that the path of a site owns is named by the source of the site and its digest. -/
theorem owns_spec {p : Site} {j : Nat} {l : String} (h : p.path.Owns j l) :
    ∃ t, (t = "" ∨ ∃ u, t = "_" ++ u) ∧
      l = p.source ++ "-" ++ digest p.parts ++ "-" ++ Number.natText j ++ t :=
  h

theorem isGenerated_of_owns {p : Site} {j : Nat} {l : String} (h : p.path.Owns j l) :
    IsGenerated l := by
  obtain ⟨t, -, rfl⟩ := owns_spec h
  refine ⟨p.source, digest p.parts, Number.natText j ++ t, isDigest_digest _,
    startsWithDigit_natText_append j t, ?_⟩
  rw [@String.append_assoc _ _ t]

/-- The locations of a body: the path owns them, or the body is that of the start and they are where
it starts. -/
theorem mem_locations {setting : Setting} {p : Site} {b : Body} (h : p.Compiles setting b)
    {l : String} (hl : l ∈ (p.fragment b).locations) :
    (∃ j, p.path.Owns j l) ∨ p.key = none ∧ l = p.source := by
  obtain ⟨a, es, es', hcompile⟩ := h
  have howned : ∀ l ∈ b.locations, ∃ j, p.path.Owns j l := fun l hl => by
    obtain ⟨j, -, hj⟩ := (BodyScope.steps_within p.steps hcompile).owned l hl
    exact ⟨j, hj⟩
  cases p with
  | target => exact .inl (howned l hl)
  | start =>
    rcases List.mem_cons.1 hl with rfl | hl
    · exact .inr ⟨rfl, rfl⟩
    · exact .inl (howned l hl)

/-- The body of a single send has one location, from which its edge leaves. -/
theorem spec_of_send {scope : BodyScope} {path : BodyPath} {probability : Expr} {event : String}
    {es es' : Events} {b : Body}
    (h : (scope.compile path probability [.send event none]).Yields es b es') :
    ∃ sent, b.locations = [path.location 0] ∧
      b.edges = [{ location := path.location 0, action := some (sendAction event)
                   destinations := [{ location := some path.target, assignments := sent }] }] := by
  obtain ⟨sent, es₁, next, -, hnext, rfl⟩ := BodyScope.yields_steps_send.1 h
  obtain ⟨rfl, -⟩ := BodyScope.yields_steps_nil.1 hnext
  exact ⟨sent, rfl, rfl⟩

/-- The edges of a body leave from its locations. -/
theorem location_mem {setting : Setting} {p : Site} {b : Body} (h : p.Compiles setting b)
    {e : Edge} (he : e ∈ (p.fragment b).edges) : e.location ∈ (p.fragment b).locations := by
  obtain ⟨a, es, es', hcompile⟩ := h
  have hleaves := (BodyScope.steps_within p.steps hcompile).leaves
  cases p with
  | target => exact hleaves e he
  | start =>
    rcases List.mem_cons.1 he with rfl | he
    · exact List.mem_cons_self
    · exact List.mem_cons_of_mem _ (hleaves e he)

end Site

namespace Chart

variable {c : Chart} {setting : Setting} {es es' : Events} {a : Automaton}

private theorem eq_target_of_mem_sitesFrom {s : State} {t : Transition} (ws : List Way)
    {total : Float}
    {p : Site} (hp : p ∈ sitesFrom s t total ws) : ∃ w total', p = .target s t w total' := by
  induction ws generalizing total with
  | nil => simp [sitesFrom] at hp
  | cons w ws ih =>
    rcases List.mem_cons.1 hp with rfl | hp
    · exact ⟨w, _, rfl⟩
    · exact ih hp

/-- The sites of a chart are at its states. -/
theorem source_of_mem_sites {constants : Constants} {p : Site} (hp : p ∈ c.sites constants) :
    ∃ s ∈ c.states, (p.source = s.id ∧ p.key ≠ none) ∨
      (s.id = c.initial ∧ p.source = c.initial ++ "-first-exec") := by
  rcases List.mem_append.1 hp with hp | hp
  · obtain ⟨s, hs, hp⟩ := List.mem_flatMap.1 hp
    obtain ⟨t, -, hp⟩ := List.mem_flatMap.1 hp
    unfold transitionSites at hp
    split at hp
    · obtain ⟨w, total, rfl⟩ := eq_target_of_mem_sitesFrom _ hp
      exact ⟨s, hs, .inl ⟨rfl, by simp [Site.key]⟩⟩
    · simp at hp
  · unfold startSites at hp
    split at hp
    · rename_i first hfirst
      have hid : first.id = c.initial := by simpa using List.find?_some hfirst
      split at hp
      · simp at hp
      · obtain rfl := List.mem_singleton.1 hp
        exact ⟨first, List.mem_of_find?_eq_some hfirst, .inr ⟨hid, by rw [Site.source, hid]⟩⟩
    · simp at hp

/-- No state of a chart has the form of a **generated name**. -/
def Plain (c : Chart) : Prop :=
  ∀ s ∈ c.states, ¬ IsGenerated s.id ∧ s.id ≠ c.initial ++ "-first-exec"

/-- Short names are plain. -/
theorem plain_of_length_lt
    (h : ∀ s ∈ c.states, s.id.toList.length < 11 ∧ s.id ≠ c.initial ++ "-first-exec") : c.Plain :=
  fun s hs => ⟨fun hgenerated => absurd hgenerated.length_le (Nat.not_le.2 (h s hs).1), (h s hs).2⟩

theorem Plain.not_isGenerated_source (h : c.Plain) {constants : Constants} {p : Site}
    (hp : p ∈ c.sites constants) : ¬ IsGenerated p.source := by
  obtain ⟨s, hs, ⟨hsource, -⟩ | ⟨hid, hsource⟩⟩ := source_of_mem_sites hp
  · exact hsource ▸ (h s hs).1
  · rw [hsource, ← hid]
    exact not_isGenerated_append (h s hs).1 (by simp)

/-- The locations of a body are not those of states. -/
theorem Plain.not_mem_states (h : c.Plain) {p : Site}
    (hp : p ∈ c.sites setting.constants) {b : Body}
    (hb : p.Compiles setting b) {l : String} (hl : l ∈ (p.fragment b).locations) :
    l ∉ c.states.map (·.id) := by
  intro hmem
  obtain ⟨s, hs, rfl⟩ := List.mem_map.1 hmem
  rcases Site.mem_locations hb hl with ⟨j, howns⟩ | ⟨hkey, hsource⟩
  · exact (h s hs).1 (Site.isGenerated_of_owns howns)
  · obtain ⟨s', -, ⟨-, hkey'⟩ | ⟨-, hstart⟩⟩ := source_of_mem_sites hp
    · exact hkey' hkey
    · exact (h s hs).2 (hsource.trans hstart)

/-- **Bodies that share a location have the same key**, if their digests differ where their parts
do. -/
theorem Plain.key_eq_of_mem (h : c.Plain) {p q : Site} (hp : p ∈ c.sites setting.constants)
    (hq : q ∈ c.sites setting.constants)
    (hdigest : digest p.parts = digest q.parts → p.parts = q.parts) {b b' : Body}
    (hb : p.Compiles setting b) (hb' : q.Compiles setting b') {l : String}
    (hl : l ∈ (p.fragment b).locations) (hl' : l ∈ (q.fragment b').locations) : p.key = q.key := by
  rcases Site.mem_locations hb hl with ⟨i, howns⟩ | ⟨hkey, hsource⟩
  · rcases Site.mem_locations hb' hl' with ⟨j, howns'⟩ | ⟨hkey', hsource'⟩
    · obtain ⟨t, ht, rfl⟩ := Site.owns_spec howns
      obtain ⟨u, hu, heq⟩ := Site.owns_spec howns'
      exact Site.key_eq_of_parts_eq (hdigest (generated_append_inj (h.not_isGenerated_source hp)
        (h.not_isGenerated_source hq) (isDigest_digest _) (isDigest_digest _) ht hu heq).2)
    · exact absurd (hsource' ▸ Site.isGenerated_of_owns howns) (h.not_isGenerated_source hq)
  · rcases Site.mem_locations hb' hl' with ⟨j, howns'⟩ | ⟨hkey', hsource'⟩
    · exact absurd (hsource ▸ Site.isGenerated_of_owns howns') (h.not_isGenerated_source hp)
    · rw [hkey, hkey']

/-- **Bodies with different keys keep apart.** Let the digests of an accepted chart differ wherever
their parts do, and let no state have the form of a generated name. The locations of the bodies,
which stand at the sites of the chart in order, are no states, those of bodies with different keys
are disjoint, and an edge that leaves from a location of a body belongs to a body with the same
key. -/
theorem compile_apart (h : (c.compile setting).Yields es a es') (hplain : c.Plain)
    (hdigest : ∀ p ∈ c.sites setting.constants, ∀ q ∈ c.sites setting.constants,
      digest p.parts = digest q.parts → p.parts = q.parts) :
    ∃ placed : List (Site × Body), placed.map (·.1) = c.sites setting.constants ∧
      (∀ p ∈ placed, p.1.Compiles setting p.2 ∧ (p.1.fragment p.2).edges ⊆ a.edges ∧
        (p.1.fragment p.2).locations ⊆ a.locations) ∧
      (∀ p ∈ placed, (p.1.fragment p.2).locations.Disjoint (c.states.map (·.id))) ∧
      (∀ p ∈ placed, ∀ q ∈ placed, p.1.key ≠ q.1.key →
        (p.1.fragment p.2).locations.Disjoint (q.1.fragment q.2).locations) ∧
      ∀ p ∈ placed, ∀ e ∈ a.edges, e.location ∈ (p.1.fragment p.2).locations →
        ∃ q ∈ placed, q.1.key = p.1.key ∧ e ∈ (q.1.fragment q.2).edges := by
  obtain ⟨placed, hsites, hgrows⟩ := compile_placed h
  have hsite : ∀ p ∈ placed, p.1 ∈ c.sites setting.constants := fun p hp =>
    hsites ▸ List.mem_map_of_mem hp
  have hkey : ∀ p ∈ placed, ∀ q ∈ placed, ∀ l ∈ (p.1.fragment p.2).locations,
      l ∈ (q.1.fragment q.2).locations → p.1.key = q.1.key := fun p hp q hq l hl hl' =>
    hplain.key_eq_of_mem (hsite p hp) (hsite q hq) (hdigest _ (hsite p hp) _ (hsite q hq))
      (hgrows.compiled p hp) (hgrows.compiled q hq) hl hl'
  have hstates : ∀ p ∈ placed, (p.1.fragment p.2).locations.Disjoint (c.states.map (·.id)) :=
    fun p hp l hl => hplain.not_mem_states (hsite p hp) (hgrows.compiled p hp) hl
  refine ⟨placed, hsites, fun p hp => ⟨hgrows.compiled p hp, fun e => hgrows.edges p hp e,
    fun l => hgrows.locations p hp l⟩, hstates, fun p hp q hq hne l hl hl' => ?_,
    fun p hp e he hl => ?_⟩
  · exact hne (hkey p hp q hq l hl hl')
  · rcases hgrows.origin e he with hnone | ⟨hstate, -⟩ | ⟨q, hq, he'⟩
    · simp at hnone
    · exact absurd hstate (hstates p hp hl)
    · exact ⟨q, hq, (hkey p hp q hq _ hl (Site.location_mem (hgrows.compiled q hq) he')).symm, he'⟩

/-- Two transitions on one event, of which only the first has a condition. -/
theorem compile_apart_of_two_conditions :
    let idle : State :=
      { id := "idle"
        transitions := some
          [{ event := some "go", cond := some "x > 0",
             goal := .single "busy" (some [.send "left" none]) },
            { event := some "go", goal := .single "busy" (some [.send "right" none]) }] }
    let c : Chart :=
      { name := "robot", initial := "idle"
        datamodel := some [{ id := "x", type := "int32", expr := some "1" }]
        states := [idle, { id := "busy" }] }
    let setting : Setting := { capacity := .whole 3, globals := fun _ => none, constants := [] }
    c.Plain ∧ (∀ p ∈ c.sites [], ∀ q ∈ c.sites [], digest p.parts = digest q.parts →
      p.parts = q.parts) ∧
      ∃ a es', (c.compile setting).Yields {} a es' ∧ ∃ placed : List (Site × Body),
        placed.map (·.1) = c.sites [] ∧ placed.length = 2 ∧
        placed.Pairwise fun p q =>
          (p.1.fragment p.2).locations.Disjoint (q.1.fragment q.2).locations := by
  intro idle c setting
  have hplain : c.Plain := plain_of_length_lt (by decide +kernel)
  have hdigest : ∀ p ∈ c.sites [], ∀ q ∈ c.sites [],
      digest p.parts = digest q.parts → p.parts = q.parts := by
    decide +kernel
  have hkeys : (c.sites []).Pairwise fun p q => p.key ≠ q.key := by decide +kernel
  obtain ⟨a, es', hcompile⟩ : ∃ a es', (c.compile setting).Yields {} a es' :=
    Build.exists_yields (by decide +kernel)
  obtain ⟨placed, hsites, -, -, hdisjoint, -⟩ := compile_apart hcompile hplain hdigest
  refine ⟨hplain, hdigest, a, es', hcompile, placed, hsites, ?_, ?_⟩
  · have hlength : (c.sites []).length = 2 := by decide +kernel
    rw [← hlength, ← hsites, List.length_map]
  · rw [← hsites, List.pairwise_map] at hkeys
    exact hkeys.imp_of_mem fun hp hq hne => hdisjoint _ hp _ hq hne

/-- **Two transitions with the same key share a location.** Both bodies are compiled along one path,
and an edge of the second leaves from the location of the first. -/
theorem compile_shares_location_of_twins :
    let twin (event : String) : Transition :=
      { event := some "go", cond := some "x > 0", goal := .single "busy" (some [.send event none]) }
    let idle : State := { id := "idle", transitions := some [twin "left", twin "right"] }
    let c : Chart :=
      { name := "robot", initial := "idle"
        datamodel := some [{ id := "x", type := "int32", expr := some "1" }]
        states := [idle, { id := "busy" }] }
    let setting : Setting := { capacity := .whole 3, globals := fun _ => none, constants := [] }
    c.Plain ∧ (∀ p ∈ c.sites [], ∀ q ∈ c.sites [], digest p.parts = digest q.parts →
      p.parts = q.parts) ∧
      ∃ a es' p b q b' e, (c.compile setting).Yields {} a es' ∧ c.sites [] = [p, q] ∧
        p.Compiles setting b ∧ q.Compiles setting b' ∧ e ∈ a.edges ∧
        e.location ∈ (p.fragment b).locations ∧ e ∈ (q.fragment b').edges ∧
        e ∉ (p.fragment b).edges := by
  intro twin idle c setting
  have hplain : c.Plain := plain_of_length_lt (by decide +kernel)
  have hdigest : ∀ p ∈ c.sites [], ∀ q ∈ c.sites [],
      digest p.parts = digest q.parts → p.parts = q.parts := by
    decide +kernel
  obtain ⟨a, es', hcompile⟩ : ∃ a es', (c.compile setting).Yields {} a es' :=
    Build.exists_yields (by decide +kernel)
  let site (event : String) : Site :=
    .target idle (twin event)
      ⟨{ target := "busy", body := some [.send event none] }, 1, { id := "busy" }⟩ (0 + 1)
  have hsites : c.sites [] = [site "left", site "right"] := rfl
  obtain ⟨placed, hplaced, hgrows⟩ := compile_placed hcompile
  obtain ⟨⟨p, b⟩, ⟨q, b'⟩, rfl⟩ := List.length_eq_two.1 (by
    rw [← List.length_map (f := Prod.fst), hplaced, hsites]
    rfl)
  obtain ⟨rfl, rfl⟩ : p = site "left" ∧ q = site "right" := by simpa using hplaced.trans hsites
  have hb : (site "left").Compiles setting b := hgrows.compiled (site "left", b) (by simp)
  have hb' : (site "right").Compiles setting b' := hgrows.compiled (site "right", b') (by simp)
  obtain ⟨_, _, _, hsteps⟩ := id hb
  obtain ⟨sent, hlocations, hedges⟩ := Site.spec_of_send hsteps
  obtain ⟨_, _, _, hsteps'⟩ := id hb'
  obtain ⟨sent', -, hedges'⟩ := Site.spec_of_send hsteps'
  -- the paths are the same, as their digests have the same parts
  have hpath : (site "right").path = (site "left").path := rfl
  have hmem : _ ∈ ((site "right").fragment b').edges := hedges'.symm ▸ List.mem_singleton_self _
  refine ⟨hplain, hdigest, a, es', site "left", b, site "right", b', _, hcompile, hsites, hb, hb',
    hgrows.edges (site "right", b') (by simp) _ hmem, ?_, hmem, ?_⟩
  · change (site "right").path.location 0 ∈ b.locations
    rw [hlocations, hpath]
    exact List.mem_singleton_self _
  · intro hmem
    change _ ∈ b.edges at hmem
    rw [hedges, List.mem_singleton] at hmem
    have hevent := sendAction_injective (Option.some.inj (congrArg Edge.action hmem))
    exact absurd hevent (by decide)

end Chart

end ChartNet
