import Mathlib
import ChartNet.Model.Random
import ChartNet.Proofs.Body.Execution
import ChartNet.Proofs.Build
import ChartNet.Proofs.Number.Doubles
import ChartNet.Proofs.Random.Sampling

/-!
# Outcomes of expanded edges

Expanding the draws of an edge splits each destination at its random assignments. **Following** the
edges that it becomes, from its location until a target is reached, gives a law over targets and
stores: an edge without a choice passes on, and an edge with several destinations mixes what follows
them. `Edge.expandDraws_outcomes` says that this law is the one of the edge before the expansion,
where a destination is chosen and its assignments are performed with all distributions drawn.

The induction runs over the assignments of a destination. What it carries along are the assignments
since the last draw: they are performed only when the next draw or the target is reached, and may
share an index with what follows as long as nothing random is among them.
-/

namespace ChartNet

/-! ### The shape of draws -/

/-- An assignment without a distribution stays where it is. -/
theorem drawAll_cons_of_not_isRandom {n : Size} {target id : String} {d i : Nat} {a : Assignment}
    {rest : List Assignment} (ha : a.value.isRandom = false) :
    drawAll n target id d i (a :: rest) =
      { drawAll n target id d (i + 1) rest with
        assignments := a :: (drawAll n target id d (i + 1) rest).assignments } := by
  simp [drawAll, ha]

/-- A random assignment leads through a **draw** and a **continuation**, wherever their locations
are. -/
theorem drawAll_cons_of_isRandom {n : Size} {target id : String} {d i : Nat} {a : Assignment}
    {rest : List Assignment} (ha : a.value.isRandom = true) :
    ∃ source after id', drawAll n target id d i (a :: rest) =
      { assignments := [], location := some source
        edges := drawEdge n source after a ::
          { location := after, action := some continuationAction
            destinations := [{ location := (drawAll n target id' 0 0 rest).location <|> some target
                               assignments := (drawAll n target id' 0 0 rest).assignments }] } ::
          (drawAll n target id' 0 0 rest).edges } :=
  ⟨_, _, _, by rw [drawAll, if_pos ha]⟩

/-- The **settled** assignments: those before the first random one. -/
def settled (as : List Assignment) : List Assignment :=
  as.takeWhile fun a => !a.value.isRandom

theorem settled_eq_self {as : List Assignment} :
    settled as = as ↔ ∀ a ∈ as, a.value.isRandom = false := by
  simp [settled, List.takeWhile_eq_self_iff]

theorem settled_sublist (as : List Assignment) : (settled as).Sublist as :=
  List.takeWhile_sublist _

theorem isRandom_of_mem_settled {as : List Assignment} {a : Assignment} (h : a ∈ settled as) :
    a.value.isRandom = false := by
  simpa using List.mem_takeWhile_imp h

/-- Draws leave the settled assignments of a destination where they are, and no others. -/
theorem assignments_drawAll {n : Size} {target : String} (as : List Assignment) (id : String)
    (d i : Nat) : (drawAll n target id d i as).assignments = settled as := by
  induction as generalizing i with
  | nil => rfl
  | cons a rest ih =>
    cases ha : a.value.isRandom with
    | false =>
      rw [drawAll_cons_of_not_isRandom ha]
      simp [settled, ha, ih (i + 1)]
    | true =>
      obtain ⟨source, after, id', hdrawn⟩ := @drawAll_cons_of_isRandom n target id d i a rest ha
      rw [hdrawn]
      simp [settled, ha]

/-- The edges of draws draw the value of an assignment, or go on after that with what is settled of
the assignments that are left. -/
theorem eq_of_mem_drawAll {n : Size} {target : String} (as : List Assignment) (id : String)
    (d i : Nat) : ∀ e ∈ (drawAll n target id d i as).edges,
      (∃ a ∈ as, a.value.isRandom ∧ ∃ source after, e = drawEdge n source after a) ∨
      ∃ rest after location, rest.Sublist as ∧
        e = { location := after, action := some continuationAction
              destinations := [{ location, assignments := settled rest }] } := by
  induction as generalizing id d i with
  | nil => simp [drawAll]
  | cons a rest ih =>
    have hlater {id : String} {d i : Nat} {e : Edge}
      (he : e ∈ (drawAll n target id d i rest).edges) :
        (∃ b ∈ a :: rest, b.value.isRandom ∧ ∃ source after, e = drawEdge n source after b) ∨
        ∃ left after location, left.Sublist (a :: rest) ∧
          e = { location := after, action := some continuationAction
                destinations := [{ location, assignments := settled left }] } := by
      rcases ih id d i e he with ⟨b, hb, hdraw⟩ | ⟨left, after, location, hleft, heq⟩
      · exact .inl ⟨b, List.mem_cons_of_mem _ hb, hdraw⟩
      · exact .inr ⟨left, after, location, .cons a hleft, heq⟩
    cases ha : a.value.isRandom with
    | false =>
      rw [drawAll_cons_of_not_isRandom ha]
      exact fun e he => hlater he
    | true =>
      obtain ⟨source, after, id', hdrawn⟩ := @drawAll_cons_of_isRandom n target id d i a rest ha
      rw [hdrawn, assignments_drawAll]
      refine List.forall_mem_cons.2 ⟨.inl ⟨a, List.mem_cons_self, ha, source, after, rfl⟩,
        List.forall_mem_cons.2 ⟨.inr ⟨rest, after, _, List.sublist_cons_self a rest, rfl⟩, ?_⟩⟩
      exact fun e he => hlater he

/-- Whether an assignment of a destination has a distribution. -/
def Destination.IsRandom (d : Destination) : Prop :=
  ∃ a ∈ d.assignments, a.value.isRandom

/-- A random destination stops at the location of its first draw. -/
theorem location_drawAll_of_isRandom {n : Size} {target : String} {as : List Assignment}
    (h : ∃ a ∈ as, a.value.isRandom) (id : String) (d i : Nat) :
    ((drawAll n target id d i as).location <|> some target) =
      (drawAll n target id d i as).location := by
  induction as generalizing i with
  | nil => simp at h
  | cons a rest ih =>
    cases ha : a.value.isRandom with
    | false =>
      rw [drawAll_cons_of_not_isRandom ha]
      exact ih (by simpa [ha] using h) (i + 1)
    | true =>
      obtain ⟨source, after, id', hdrawn⟩ := @drawAll_cons_of_isRandom n target id d i a rest ha
      rw [hdrawn]
      rfl

/-- What a destination **becomes**: itself if it is not random, and otherwise the way to the first
draw of one that has a location. -/
theorem Edge.expandDestination_eq_ok {n : Size} {e : Edge} {id : String} {k : Nat}
    {d : Destination} {part : Destination × List Edge} :
    e.expandDestination n id k d = .ok part ↔
      (¬ d.IsRandom ∧ part = (d, [])) ∨
      (d.IsRandom ∧ ∃ target, d.location = some target ∧
        part = ({ d with
          location := (drawAll n target id k 0 d.assignments).location
          assignments := (drawAll n target id k 0 d.assignments).assignments },
          (drawAll n target id k 0 d.assignments).edges)) := by
  have hrandom : (d.assignments.any (·.value.isRandom)) = true ↔ d.IsRandom := by
    simp [Destination.IsRandom]
  unfold expandDestination
  split <;> rename_i h
  · rw [hrandom] at h
    cases hlocation : d.location with
    | none => simp [h, targetOf, hlocation, failModel, bind, Except.bind]
    | some target => simp [h, targetOf, hlocation, bind, Except.bind, pure, Except.pure, eq_comm]
  · rw [hrandom] at h
    simp [h, eq_comm]

theorem Edge.probability_expandDestination {n : Size} {e : Edge} {id : String} {k : Nat}
    {d : Destination} {part : Destination × List Edge}
    (h : e.expandDestination n id k d = .ok part) : part.1.probability = d.probability := by
  rcases Edge.expandDestination_eq_ok.1 h with ⟨-, rfl⟩ | ⟨-, _, -, rfl⟩ <;> rfl

theorem Edge.assignments_expandDestination {n : Size} {e : Edge} {id : String} {k : Nat}
    {d : Destination} {part : Destination × List Edge}
    (h : e.expandDestination n id k d = .ok part) : part.1.assignments = settled d.assignments := by
  rcases Edge.expandDestination_eq_ok.1 h with ⟨hfixed, rfl⟩ | ⟨-, target, -, rfl⟩
  · refine (settled_eq_self.2 fun a ha => ?_).symm
    simpa using fun hrandom => hfixed ⟨a, ha, hrandom⟩
  · exact assignments_drawAll _ _ _ _

/-- The edges that an edge with an action **becomes**: itself with other destinations, and what the
draws of each destination became. -/
theorem Edge.expandDraws_eq_ok {n : Size} {e : Edge} {id : String} {es : List Edge}
    (haction : e.action ≠ none) : e.expandDraws n id = .ok es ↔
      ∃ parts : List (Destination × List Edge),
        List.Forall₂ (fun d part => e.expandDestination n id d.2 d.1 = .ok part)
          e.destinations.zipIdx parts ∧
        es = { e with destinations := parts.map (·.1) } :: parts.flatMap (·.2) := by
  obtain ⟨action, haction⟩ := Option.ne_none_iff_exists'.1 haction
  rw [expandDraws, haction]
  simp only [Result.bind_eq_ok, Result.mapM_eq_ok]
  constructor
  · rintro ⟨parts, hparts, hes⟩
    exact ⟨parts, hparts, (Except.ok.inj hes).symm⟩
  · rintro ⟨parts, hparts, rfl⟩
    exact ⟨parts, hparts, rfl⟩

/-- What an edge can **expand into**: itself, with what is settled of its destinations if it has an
action, edges that draw the value of an assignment, and edges that go on after a draw. -/
inductive Edge.ExpandsInto (n : Size) (e : Edge) : Edge → Prop
  | kept (haction : e.action = none) : ExpandsInto n e e
  | own {ds : List Destination} (haction : e.action ≠ none)
      (hds : ∀ d' ∈ ds, ∃ d ∈ e.destinations,
        d'.probability = d.probability ∧ d'.assignments = settled d.assignments) :
      ExpandsInto n e { e with destinations := ds }
  | draw {d : Destination} {a : Assignment} (hd : d ∈ e.destinations) (ha : a ∈ d.assignments)
      (hrandom : a.value.isRandom) (source after : String) :
      ExpandsInto n e (drawEdge n source after a)
  | continuation {d : Destination} {rest : List Assignment} (hd : d ∈ e.destinations)
      (hrest : rest.Sublist d.assignments) (after : String) (location : Option String) :
      ExpandsInto n e
        { location := after, action := some continuationAction
          destinations := [{ location, assignments := settled rest }] }

/-- **Expanding an edge gives nothing else.** -/
theorem Edge.expandsInto_of_mem {n : Size} {e : Edge} {id : String} {es : List Edge}
    (h : e.expandDraws n id = .ok es) : ∀ e' ∈ es, e.ExpandsInto n e' := by
  intro e' he'
  by_cases haction : e.action = none
  · rw [expandDraws, haction] at h
    cases h
    rw [List.mem_singleton.1 he']
    exact .kept haction
  obtain ⟨parts, hparts, rfl⟩ := (expandDraws_eq_ok haction).1 h
  rcases List.mem_cons.1 he' with rfl | he'
  · refine .own haction fun d' hd' => ?_
    obtain ⟨part, hpart, rfl⟩ := List.mem_map.1 hd'
    obtain ⟨⟨d, k⟩, hd, hexpand⟩ := exists_of_mem_forall₂ hparts hpart
    exact ⟨d, List.fst_mem_of_mem_zipIdx hd, probability_expandDestination hexpand,
      assignments_expandDestination hexpand⟩
  · obtain ⟨part, hpart, he'⟩ := List.mem_flatMap.1 he'
    obtain ⟨⟨d, k⟩, hd, hexpand⟩ := exists_of_mem_forall₂ hparts hpart
    have hmem : d ∈ e.destinations := List.fst_mem_of_mem_zipIdx hd
    rcases expandDestination_eq_ok.1 hexpand with ⟨-, rfl⟩ | ⟨-, target, -, rfl⟩
    · simp at he'
    · rcases eq_of_mem_drawAll _ _ _ _ e' he' with
        ⟨a, ha, hrandom, source, after, rfl⟩ | ⟨rest, after, location, hrest, rfl⟩
      · exact .draw hmem ha hrandom source after
      · exact .continuation hmem hrest after location

/-! ### The order of assignments -/

/-- How an assignment may stand **before** another: at a lower index, or at the same one if neither
has a distribution. -/
def Assignment.Precedes (a b : Assignment) : Prop :=
  a.index.le b.index ∧ (a.index = b.index → a.value.isRandom = false ∧ b.value.isRandom = false)

/-- A random assignment has an index of its own. -/
theorem Assignment.Precedes.not_le {a b : Assignment} (h : a.Precedes b)
    (hrandom : a.value.isRandom ∨ b.value.isRandom) : ¬ b.index.le a.index := by
  intro hle
  obtain ⟨ha, hb⟩ := h.2 (Rank.le_antisymm h.1 hle)
  rcases hrandom with hr | hr
  · simp [ha] at hr
  · simp [hb] at hr

namespace Interpretation.Arithmetic

noncomputable section

variable {I : Interpretation} (A : I.Arithmetic)

/-! ### Following edges -/

/-- **Following** edges from a location and a store until a place to stop: exactly one edge is
enabled at each location on the way. The law is over the places and stores that are reached. -/
inductive Follows (edges : List Edge) (stop : Option String → Prop) :
    Option String → I.Store → Law (Option String × I.Store) → Prop
  | stop {l : Option String} {σ : I.Store} (hstop : stop l) :
    Follows edges stop l σ (.certain (l, σ))
  | step {l : String} {σ : I.Store} {e : Edge} {law : Destination → Law (Option String × I.Store)}
      (hgo : ¬ stop (some l)) (henabled : I.enabled edges l σ = [e])
      (hlaw : ∀ d ∈ e.destinations,
        Follows edges stop d.location (I.perform d.assignments σ) (law d)) :
      Follows edges stop (some l) σ (A.choose σ e.destinations law)

/-- **Departing** from a location takes one step before anything is a place to stop. -/
def Departs (edges : List Edge) (stop : Option String → Prop) (l : String) (σ : I.Store)
    (law : Law (Option String × I.Store)) : Prop :=
  ∃ e after, I.enabled edges l σ = [e] ∧
    (∀ d ∈ e.destinations,
      A.Follows edges stop d.location (I.perform d.assignments σ) (after d)) ∧
    law = A.choose σ e.destinations after

variable {A} {n : Nat} {edges : List Edge} {stop : Option String → Prop}

theorem choose_congr {α : Type} {σ : I.Store} {destinations : List Destination}
    {law law' : Destination → Law α} (h : ∀ d ∈ destinations, law d = law' d) :
    A.choose σ destinations law = A.choose σ destinations law' := by
  unfold choose
  rw [List.map_congr_left fun d hd => by rw [h d hd]]

/-- There is at most one law of following edges. -/
theorem Follows.unique {l : Option String} {σ : I.Store} {law law' : Law (Option String × I.Store)}
    (h : A.Follows edges stop l σ law) (h' : A.Follows edges stop l σ law') : law = law' := by
  induction h generalizing law' with
  | stop hstop =>
    cases h' with
    | stop => rfl
    | step hgo => exact absurd hstop hgo
  | step hgo henabled hlaw ih =>
    cases h' with
    | stop hstop => exact absurd hstop hgo
    | step hgo' henabled' hlaw' =>
      obtain rfl := List.singleton_inj.1 (henabled.symm.trans henabled')
      exact choose_congr fun d hd => ih d hd (hlaw' d hd)

/-- There is at most one law of departing. -/
theorem Departs.unique {l : String} {σ : I.Store} {law law' : Law (Option String × I.Store)}
    (h : A.Departs edges stop l σ law) (h' : A.Departs edges stop l σ law') : law = law' := by
  obtain ⟨e, after, henabled, hafter, rfl⟩ := h
  obtain ⟨e', after', henabled', hafter', rfl⟩ := h'
  obtain rfl := List.singleton_inj.1 (henabled.symm.trans henabled')
  exact choose_congr fun d hd => (hafter d hd).unique (hafter' d hd)

/-- **Departing** along an edge gives the choice among some destinations if each destination of the
edge keeps the probability of one of them and leads to its law. -/
theorem departs_of_forall₂ {l : String} {σ : I.Store} {e : Edge} {destinations : List Destination}
    {law : Destination → Law (Option String × I.Store)} (henabled : I.enabled edges l σ = [e])
    (h : List.Forall₂ (fun d d' => d'.probability = d.probability ∧
      A.Follows edges stop d'.location (I.perform d'.assignments σ) (law d))
      destinations e.destinations) :
    A.Departs edges stop l σ (A.choose σ destinations law) := by
  have hafter : ∀ d' ∈ e.destinations, ∃ law', A.Follows edges stop d'.location
      (I.perform d'.assignments σ) law' := fun d' hd' => by
    obtain ⟨d, -, -, hfollows⟩ := exists_of_mem_forall₂ h hd'
    exact ⟨_, hfollows⟩
  choose! after hafter using hafter
  refine ⟨e, after, henabled, hafter, ?_⟩
  unfold choose
  congr 1
  rw [← List.forall₂_eq_eq_eq, List.forall₂_map_left_iff, List.forall₂_map_right_iff]
  rw [List.forall₂_iff_zip] at h ⊢
  refine ⟨h.1, fun {d d'} hzip => ?_⟩
  -- Equal destinations lead to one law, so it does not matter which of them `after` was chosen for.
  obtain ⟨hprobability, hfollows⟩ := h.2 hzip
  rw [hprobability, hfollows.unique (hafter d' (List.of_mem_zip hzip).2)]

/-- Where each location has one edge, that edge alone may be enabled there. -/
theorem enabled_of_mem (hnodup : (edges.map (·.location)).Nodup) {e : Edge} (he : e ∈ edges)
    (σ : I.Store) :
    I.enabled edges e.location σ = if (I.judge σ).admits e.guard then [e] else [] := by
  induction edges with
  | nil => simp at he
  | cons e' edges ih =>
    rw [List.map_cons, List.nodup_cons] at hnodup
    rcases List.mem_cons.1 he with rfl | he
    · have hrest : I.enabled edges e.location σ = [] := by
        refine List.filter_eq_nil_iff.2 fun f hf h => hnodup.1 ?_
        have hsame : f.location = e.location := by simp_all
        exact hsame ▸ List.mem_map_of_mem hf
      unfold enabled at hrest
      simp [enabled, List.filter_cons, hrest]
    · have hother : e'.location ≠ e.location := fun h => hnodup.1 (h ▸ List.mem_map_of_mem he)
      rw [← ih hnodup.2 he]
      simp [enabled, hother]

/-- An edge without a choice **passes on** to its only destination. -/
theorem Follows.pass {e : Edge} {d : Destination} {σ : I.Store}
    {law : Law (Option String × I.Store)} (hgo : ¬ stop (some e.location))
    (henabled : I.enabled edges e.location σ = [e]) (hdestinations : e.destinations = [d])
    (hcertain : d.probability = .real 1)
    (h : A.Follows edges stop d.location (I.perform d.assignments σ) law) :
    A.Follows edges stop (some e.location) σ law := by
  have hchoose : A.choose σ e.destinations (fun _ => law) = law := by
    rw [choose, hdestinations, List.map_singleton, hcertain, A.weight_real, A.read_one,
      Law.mix_singleton_one]
  rw [← hchoose]
  refine .step hgo henabled fun d' hd' => ?_
  rw [hdestinations, List.mem_singleton] at hd'
  exact hd' ▸ h

/-! ### Draws -/

/-- A **draw** chooses among the values of an assignment with equal chance. -/
theorem choose_drawEdge {α : Type} (source target : String) {a : Assignment}
    (hexact : A.Exact n a.value) (σ : I.Store) (law : I.Store → Law α) :
    A.choose σ (drawEdge (.whole n) source target a).destinations
        (fun d => law (I.perform d.assignments σ)) =
      (A.sample n σ a.value).bind fun new => law (I.put σ σ a new) := by
  have hperform (value : Expr) :
      I.perform [{ ref := a.ref, value }] σ = I.put σ σ a (I.eval σ value) := by
    rw [I.perform_of_index (r := .zero) (by simp)]
    rfl
  have hweight : A.weight (I.eval σ (.real (1 / Float.ofNat (a.value.draws (.whole n)).length))) =
      1 / ((a.value.draws (.whole n)).length : ℚ) := by
    rw [A.weight_real, Expr.draws_eq_map_plug, List.length_map, Expr.length_combinations,
      hexact.share]
  rw [sample_eq_uniform hexact, Law.uniform_bind, choose, drawEdge, List.map_map,
    List.map_map, List.length_map]
  simp only [Function.comp_def, hperform, hweight]

/-- A random assignment is sampled after those before it and before those after it. -/
theorem samplePerform_cons_of_isRandom {before rest : List Assignment} {a : Assignment}
    (hordered : (before ++ a :: rest).Pairwise Assignment.Precedes)
    (hbefore : ∀ b ∈ before, b.value.isRandom = false) (ha : a.value.isRandom) (σ : I.Store) :
    A.samplePerform n (before ++ a :: rest) σ =
      (A.sample n (I.perform before σ) a.value).bind fun new =>
        A.samplePerform n rest (I.put (I.perform before σ) (I.perform before σ) a new) := by
  obtain ⟨-, hrest, hcross⟩ := List.pairwise_append.1 hordered
  have hafter : ∀ b ∈ rest, ¬ b.index.le a.index := fun b hb =>
    ((List.pairwise_cons.1 hrest).1 b hb).not_le (.inl ha)
  have hearlier : ∀ b ∈ before, ∀ c ∈ a :: rest, ¬ c.index.le b.index := by
    intro b hb c hc
    rcases List.mem_cons.1 hc with rfl | hc'
    · exact (hcross b hb c hc).not_le (.inr ha)
    · exact fun hle => hafter c hc' (Rank.le_trans hle (hcross b hb a (by simp)).1)
  rw [samplePerform_append hearlier, samplePerform_of_not_isRandom hbefore, Law.certain_bind,
    ← List.singleton_append, samplePerform_append (by simpa using hafter), samplePerform_singleton,
    Law.map_bind]

/-- **Following the edges of draws** samples the assignments on the way to a target. The assignments
`before` were passed already and are still to be performed. -/
theorem follows_drawAll (hnodup : (edges.map (·.location)).Nodup) {target : String}
    (htarget : stop (some target)) {as : List Assignment} :
    ∀ (before : List Assignment) {id : String} {d i : Nat} {σ : I.Store},
      (before ++ as).Pairwise Assignment.Precedes → (∀ a ∈ before, a.value.isRandom = false) →
      (∀ a ∈ as, a.value.isRandom → A.Exact n a.value) →
      (∀ e ∈ (drawAll (.whole n) target id d i as).edges, e ∈ edges ∧ ¬ stop (some e.location)) →
      A.Follows edges stop ((drawAll (.whole n) target id d i as).location <|> some target)
        (I.perform (before ++ (drawAll (.whole n) target id d i as).assignments) σ)
        ((A.samplePerform n (before ++ as) σ).map (some target, ·)) := by
  induction as with
  | nil =>
    intro before id d i σ _ hbefore _ _
    rw [drawAll, List.append_nil, samplePerform_of_not_isRandom hbefore, Law.map_certain]
    exact .stop htarget
  | cons a rest ih =>
    intro before id d i σ hordered hbefore hexact hedges
    cases ha : a.value.isRandom with
    | false =>
      -- The assignment waits with those before it.
      rw [drawAll_cons_of_not_isRandom ha] at hedges ⊢
      have hwait : ∀ b ∈ before ++ [a], b.value.isRandom = false := by
        simpa [or_imp, forall_and, ha] using hbefore
      rw [List.append_cons] at hordered
      rw [List.append_cons before a rest, List.append_cons]
      exact ih (before ++ [a]) hordered hwait (List.forall_mem_cons.1 hexact).2 hedges
    | true =>
      -- Those before it are performed, its value is drawn, and the rest starts anew.
      obtain ⟨source, after, id', hdrawn⟩ :=
        @drawAll_cons_of_isRandom (.whole n) target id d i a rest ha
      rw [hdrawn] at hedges ⊢
      simp only [List.forall_mem_cons] at hedges
      obtain ⟨⟨hsource, hgoSource⟩, ⟨hafter, hgoAfter⟩, hedges⟩ := hedges
      rw [List.append_nil, samplePerform_cons_of_isRandom hordered hbefore ha, Law.bind_map,
        ← choose_drawEdge source after (hexact a (by simp) ha) _
          fun σ' => (A.samplePerform n rest σ').map (some target, ·)]
      refine .step hgoSource (enabled_of_mem hnodup hsource _) fun d' hd' => ?_
      obtain ⟨value, -, rfl⟩ := List.mem_map.1 hd'
      refine .pass hgoAfter (enabled_of_mem hnodup hafter _) rfl rfl ?_
      have hrest : ([] ++ rest).Pairwise Assignment.Precedes :=
        (List.pairwise_cons.1 (List.pairwise_append.1 hordered).2.1).2
      exact ih [] hrest (by simp) (List.forall_mem_cons.1 hexact).2 hedges

/-- **What a destination becomes** samples its assignments on the way to its location. -/
theorem follows_expandDestination (hnodup : (edges.map (·.location)).Nodup) {e : Edge} {id : String}
    {k : Nat} {d : Destination} {part : Destination × List Edge}
    (h : e.expandDestination (.whole n) id k d = .ok part) (hstop : stop d.location)
    (hordered : d.assignments.Pairwise Assignment.Precedes)
    (hexact : ∀ a ∈ d.assignments, a.value.isRandom → A.Exact n a.value)
    (hedges : ∀ e' ∈ part.2, e' ∈ edges ∧ ¬ stop (some e'.location)) (σ : I.Store) :
    A.Follows edges stop part.1.location (I.perform part.1.assignments σ)
      ((A.samplePerform n d.assignments σ).map (d.location, ·)) := by
  rcases Edge.expandDestination_eq_ok.1 h with ⟨hcertain, rfl⟩ | ⟨hrandom, target, htarget, rfl⟩
  · have hvalues : ∀ a ∈ d.assignments, a.value.isRandom = false := by
      simpa [Destination.IsRandom] using hcertain
    rw [samplePerform_of_not_isRandom hvalues, Law.map_certain]
    exact .stop hstop
  · rw [htarget] at hstop ⊢
    have hfollows := follows_drawAll hnodup hstop [] (σ := σ) hordered (by simp) hexact hedges
    rwa [location_drawAll_of_isRandom hrandom] at hfollows

end

end Interpretation.Arithmetic

namespace Edge

open Interpretation.Arithmetic

/-- An edge can be **expanded** if each random destination has a location. -/
theorem exists_expandDraws_eq_ok {n : Size} {e : Edge} {id : String} (haction : e.action ≠ none) :
    (∃ es, e.expandDraws n id = .ok es) ↔
      ∀ d ∈ e.destinations, d.IsRandom → d.location ≠ none := by
  have hpart (d : Destination) (k : Nat) :
      (∃ part, e.expandDestination n id k d = .ok part) ↔ (d.IsRandom → d.location ≠ none) := by
    constructor
    · rintro ⟨part, h⟩ hrandom
      rcases expandDestination_eq_ok.1 h with ⟨hcertain, -⟩ | ⟨-, target, htarget, -⟩
      · exact absurd hrandom hcertain
      · simp [htarget]
    · intro h
      by_cases hrandom : d.IsRandom
      · obtain ⟨target, htarget⟩ := Option.ne_none_iff_exists'.1 (h hrandom)
        exact ⟨_, expandDestination_eq_ok.2 (.inr ⟨hrandom, target, htarget, rfl⟩)⟩
      · exact ⟨_, expandDestination_eq_ok.2 (.inl ⟨hrandom, rfl⟩)⟩
  calc (∃ es, e.expandDraws n id = .ok es)
      ↔ ∃ parts, e.destinations.zipIdx.mapM (fun d => e.expandDestination n id d.2 d.1) =
          .ok parts := by
        simp only [expandDraws_eq_ok haction, Result.mapM_eq_ok]
        exact ⟨fun ⟨_, parts, h, _⟩ => ⟨parts, h⟩, fun ⟨parts, h⟩ => ⟨_, parts, h, rfl⟩⟩
    _ ↔ ∀ d ∈ e.destinations.zipIdx, d.1.IsRandom → d.1.location ≠ none := by
        simp only [Result.exists_mapM_eq_ok, hpart]
    _ ↔ ∀ d ∈ e.destinations, d.IsRandom → d.location ≠ none := by
        rw [← List.forall_mem_map (f := Prod.fst)
          (P := fun d : Destination => d.IsRandom → d.location ≠ none), List.zipIdx_map_fst]

/-- Where its guard is true, **departing along an expanded edge** has the law of its outcomes. -/
private theorem departs_outcomes {I : Interpretation} {A : I.Arithmetic} {n : Nat} {e : Edge}
    {id : String} {parts : List (Destination × List Edge)} {edges : List Edge}
    (hparts : List.Forall₂ (fun d part => e.expandDestination (.whole n) id d.2 d.1 = .ok part)
      e.destinations.zipIdx parts)
    (hedges : edges = { e with destinations := parts.map (·.1) } :: parts.flatMap (·.2))
    (hordered : ∀ d ∈ e.destinations, d.assignments.Pairwise Assignment.Precedes)
    (hexact : ∀ d ∈ e.destinations, ∀ a ∈ d.assignments, a.value.isRandom → A.Exact n a.value)
    (hnodup : (edges.map (·.location)).Nodup)
    (htargets : ∀ d ∈ e.destinations, ∀ e' ∈ edges.tail, d.location ≠ some e'.location)
    {σ : I.Store} (henabled : I.enabled edges e.location σ =
      [{ e with destinations := parts.map (·.1) }]) :
    A.Departs edges (· ∈ e.destinations.map (·.location)) e.location σ (A.outcomes n e σ) := by
  have hfollows : List.Forall₂ (fun d d' => d'.probability = d.probability ∧
      A.Follows edges (· ∈ e.destinations.map (·.location)) d'.location
        (I.perform d'.assignments σ) ((A.samplePerform n d.assignments σ).map (d.location, ·)))
      (e.destinations.zipIdx.map (·.1)) (parts.map (·.1)) := by
    rw [List.forall₂_map_left_iff, List.forall₂_map_right_iff]
    rw [List.forall₂_iff_zip] at hparts ⊢
    refine ⟨hparts.1, fun {d part} hzip => ?_⟩
    have hd : d.1 ∈ e.destinations := List.fst_mem_of_mem_zipIdx (List.of_mem_zip hzip).1
    have hpart := hparts.2 hzip
    refine ⟨probability_expandDestination hpart, follows_expandDestination hnodup hpart
      (List.mem_map_of_mem hd) (hordered _ hd) (hexact _ hd) (fun e' he' => ?_) σ⟩
    have htail : e' ∈ parts.flatMap (·.2) :=
      List.mem_flatMap.2 ⟨part, (List.of_mem_zip hzip).2, he'⟩
    subst hedges
    refine ⟨List.mem_cons_of_mem _ htail, fun hstop => ?_⟩
    obtain ⟨d', hd', hlocation⟩ := List.mem_map.1 hstop
    exact htargets d' hd' e' htail hlocation
  rw [List.zipIdx_map_fst] at hfollows
  exact departs_of_forall₂ henabled hfollows

/-- **Expanding draws keeps the law of outcomes.** Let the assignments of each destination be listed
by ascending index, a random one alone at its index, and let their draws be read exactly. The edge
can be expanded if its random destinations have locations. If the locations of the edges it becomes
are distinct and none of them but its own is a target, then following these edges from its location
to a target has exactly one law, that of its outcomes; where its guard is false no edge is
enabled. -/
theorem expandDraws_outcomes {I : Interpretation} (A : I.Arithmetic) (n : Nat) (e : Edge)
    (id : String) (haction : e.action ≠ none)
    (hordered : ∀ d ∈ e.destinations, d.assignments.Pairwise Assignment.Precedes)
    (hexact : ∀ d ∈ e.destinations, ∀ a ∈ d.assignments, a.value.isRandom → A.Exact n a.value) :
    ((∃ es, e.expandDraws (.whole n) id = .ok es) ↔
      ∀ d ∈ e.destinations, d.IsRandom → d.location ≠ none) ∧
    ∀ es, e.expandDraws (.whole n) id = .ok es → (es.map (·.location)).Nodup →
      (∀ d ∈ e.destinations, ∀ e' ∈ es.tail, d.location ≠ some e'.location) →
      ∀ σ : I.Store,
        if (I.judge σ).admits e.guard then
          ∀ law, A.Departs es (· ∈ e.destinations.map (·.location)) e.location σ law ↔
            law = A.outcomes n e σ
        else I.enabled es e.location σ = [] := by
  refine ⟨exists_expandDraws_eq_ok haction, fun es hes hnodup htargets σ => ?_⟩
  obtain ⟨parts, hparts, hedges⟩ := (expandDraws_eq_ok haction).1 hes
  have henabled := enabled_of_mem hnodup (hedges ▸ List.mem_cons_self) σ
  split <;> rename_i hguard
  · rw [if_pos hguard] at henabled
    have houtcomes := departs_outcomes hparts hedges hordered hexact hnodup htargets henabled
    exact fun law => ⟨fun h => h.unique houtcomes, fun h => h ▸ houtcomes⟩
  · rwa [if_neg hguard] at henabled

end Edge

/-! ### Rational numbers -/

namespace Interpretation

open Number (numberOf)

/-- Operators on rational numbers, where zero is false; those that lead to other numbers or to
arrays are left out. -/
def operate : Opcode → List ℚ → ℚ
  | .unary .not, [x] => if x = 0 then 1 else 0
  | .unary .abs, [x] => |x|
  | .binary .and, [x, y] => if x = 0 then 0 else if y = 0 then 0 else 1
  | .binary .or, [x, y] => if x = 0 then (if y = 0 then 0 else 1) else 1
  | .binary .lt, [x, y] => if x < y then 1 else 0
  | .binary .add, [x, y] => x + y
  | .binary .sub, [x, y] => x - y
  | .binary .mul, [x, y] => x * y
  | .binary .div, [x, y] => x / y
  | .ternary .ite, [x, y, z] => if x = 0 then z else y
  | _, _ => 0

/-- The value of an expression whose distributions have given numbers. -/
def rationalValue (σ : String → ℚ) : Expr → List ℚ → ℚ
  | .ident x, _ => σ x
  | .lit (.bool b), _ => if b then 1 else 0
  | .lit (.num _ x), _ => numberOf x
  | .lit (.constant c), _ => numberOf c.value
  | .array _, _ => 0
  | .uniform _ _, qs => qs.headD 0
  | .unary op a, qs => operate (.unary op) [rationalValue σ a qs]
  | .binary op a b, qs =>
    let (qs, rs) := qs.splitAt a.distributions.length
    operate (.binary op) [rationalValue σ a qs, rationalValue σ b rs]
  | .ternary op a b c, qs =>
    let (qs, rs) := qs.splitAt a.distributions.length
    let (rs, ss) := rs.splitAt b.distributions.length
    operate (.ternary op) [rationalValue σ a qs, rationalValue σ b rs, rationalValue σ c ss]
  | .quaternary op a b c d, qs =>
    let (qs, rs) := qs.splitAt a.distributions.length
    let (rs, ss) := rs.splitAt b.distributions.length
    let (ss, ts) := ss.splitAt c.distributions.length
    operate (.quaternary op)
      [rationalValue σ a qs, rationalValue σ b rs, rationalValue σ c ss, rationalValue σ d ts]

theorem rationalValue_plug (σ : String → ℚ) (e : Expr) (xs : List Float) :
    rationalValue σ (e.plug xs) [] = rationalValue σ e (xs.map numberOf) := by
  induction e generalizing xs with
  | ident | array => rfl
  | lit v => cases v <;> rfl
  | uniform => cases xs <;> rfl
  | unary op a ha => simp [Expr.plug, rationalValue, ha]
  | binary op a b ha hb => simp [Expr.plug, rationalValue, ha, hb]
  | ternary op a b c ha hb hc => simp [Expr.plug, rationalValue, ha, hb, hc]
  | quaternary op a b c d ha hb hc hd => simp [Expr.plug, rationalValue, ha, hb, hc, hd]

/-- The interpretation by **rational numbers**. -/
@[reducible]
def rational : Interpretation where
  Value := ℚ
  eval σ e := rationalValue σ e []
  judge σ :=
    { holds := fun e => rationalValue σ e [] ≠ 0
      holds_true := by simp [Expr.bool, rationalValue]
      holds_not := fun a => by simp [Expr.not, rationalValue, operate]
      holds_and := fun a b => by simp [Expr.and, rationalValue, operate] }
  replace _ _ new := new

/-- Rational numbers are read exactly. -/
def rationalArithmetic : rational.Arithmetic where
  read := numberOf
  weight := id
  value := rationalValue
  read_one := by decide +kernel
  weight_real _ _ := rfl
  eval_plug σ e xs _ := rationalValue_plug σ e xs

end Interpretation

open Interpretation

/-- Two draws one after another, the second of a value that reads the first. -/
theorem Edge.expandDraws_outcomes_of_two_draws :
    let e : Edge :=
      { location := "a", action := some "flip"
        destinations := [{ location := some "b", assignments :=
          [{ ref := .ident "r", value := .uniform 0 1, index := .ofInt 0 },
            { ref := .ident "q", value := .binary .add (.uniform 0 2) (.ident "r"),
              index := .ofInt 1 },
            { ref := .ident "n", value := .int 1, index := .ofInt 2 }] }] }
    ∃ es, e.expandDraws (.whole 2) "a_flip" = .ok es ∧ es.length = 5 ∧
      ∀ (σ : rational.Store) law, rationalArithmetic.Departs es (· ∈ [some "b"]) "a" σ law ↔
        law = rationalArithmetic.outcomes 2 e σ := by
  intro e
  have hordered : ∀ d ∈ e.destinations, d.assignments.Pairwise Assignment.Precedes := by
    simp [e, Assignment.Precedes, Rank.le, Rank.ofInt]
  have hexact : ∀ d ∈ e.destinations, ∀ a ∈ d.assignments, a.value.isRandom →
      rationalArithmetic.Exact 2 a.value := by
    simp only [e, List.forall_mem_singleton, List.forall_mem_cons]
    exact ⟨fun _ => ⟨by decide +kernel, by decide +kernel⟩,
      fun _ => ⟨by decide +kernel, by decide +kernel⟩,
      by simp [Expr.int, Expr.isRandom, Expr.any, Expr.isUniform]⟩
  obtain ⟨-, hlaw⟩ := Edge.expandDraws_outcomes rationalArithmetic 2 e "a_flip" (by decide) hordered
    hexact
  refine ⟨_, rfl, by decide +kernel, fun σ => ?_⟩
  exact hlaw _ rfl (by decide +kernel) (by decide +kernel) σ

end ChartNet
