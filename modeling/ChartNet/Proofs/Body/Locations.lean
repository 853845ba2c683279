import ChartNet.Chart.Body
import ChartNet.Proofs.Build
import ChartNet.Proofs.Names

/-!
# Locations of bodies

Every new location of a body is named by its path and the number of a step, possibly with more text
that does not start with a digit: the path **owns** the location at that step. A location is owned
at one step only, and inside a choice by one branch only, so bodies compiled for different steps and
branches share no locations. `Body.Within` collects what follows: the locations of a body are owned
by its path, and its edges leave from its own locations.

The first section takes the compilation of steps apart, one statement per kind of step; everything
that is proved about bodies starts from there.
-/

namespace ChartNet

/-! ### Taking a compilation apart -/

namespace BodyScope

variable {s : BodyScope} {path : BodyPath} {probability : Expr} {assignments : List Assignment}
  {i : Nat} {events events' : Events} {body : Body}

/-- A value that is **sent** is recorded in its field with the type that it has, and assigned as the
type demands that the field has then. -/
theorem yields_sendParam {event : String} {p : Param} {sent : List Assignment} :
    (s.sendParam event p).Yields events sent events' ↔
      ∃ source given type, Source.read p.expr = .ok source ∧
        s.payloadType events source = .ok given ∧
        (EventM.recordField event p.name given).Yields events type events' ∧
        ((∃ shape as, type = .array shape ∧ sent = as.map (fun a => { a with index := .zero }) ∧
            (s.scope events').assignArray (event ++ "." ++ p.name) shape source .zero = .ok as) ∨
          (type.isArray = false ∧ ∃ value, Source.parseFor s.event p.expr = .ok value ∧
            sent = [{ ref := .ident (event ++ "." ++ p.name), value }])) := by
  simp only [sendParam, Build.yields_bind, Build.yields_ofResult, Build.yields_get]
  constructor
  · rintro ⟨source, _, ⟨hsource, rfl⟩, _, _, ⟨rfl, rfl⟩, given, _, ⟨hgiven, rfl⟩, type,
      events₁, hrecord, h⟩
    refine ⟨source, given, type, hsource, hgiven, ?_⟩
    split at h
    · simp only [Build.yields_bind, Build.yields_get, Build.yields_ofResult, Build.yields_pure] at h
      obtain ⟨_, _, ⟨rfl, rfl⟩, as, _, ⟨has, rfl⟩, rfl, rfl⟩ := h
      exact ⟨hrecord, .inl ⟨_, as, rfl, rfl, has⟩⟩
    · rename_i hscalar
      simp only [Build.yields_bind, Build.yields_ofResult, Build.yields_pure] at h
      obtain ⟨value, _, ⟨hvalue, rfl⟩, rfl, rfl⟩ := h
      refine ⟨hrecord, .inr ⟨?_, value, hvalue, rfl⟩⟩
      cases type with
      | array shape => exact absurd rfl (hscalar shape)
      | _ => rfl
  · rintro ⟨source, given, type, hsource, hgiven, hrecord, h⟩
    refine ⟨source, _, ⟨hsource, rfl⟩, _, _, ⟨rfl, rfl⟩, given, _, ⟨hgiven, rfl⟩, type, events',
      hrecord, ?_⟩
    rcases h with ⟨shape, as, rfl, rfl, has⟩ | ⟨hscalar, value, hvalue, rfl⟩
    · simp only [Build.yields_bind, Build.yields_get, Build.yields_ofResult, Build.yields_pure]
      exact ⟨_, _, ⟨rfl, rfl⟩, as, _, ⟨has, rfl⟩, rfl, rfl⟩
    · cases type with
      | array shape => cases hscalar
      | _ =>
        simp only [Build.yields_bind, Build.yields_ofResult, Build.yields_pure]
        exact ⟨value, _, ⟨hvalue, rfl⟩, rfl, rfl⟩

theorem yields_sendParams_nil {event : String} {sent : List Assignment} :
    (s.sendParams event []).Yields events sent events' ↔ sent = [] ∧ events' = events :=
  Build.yields_pure

theorem yields_sendParams_cons {event : String} {p : Param} {ps : List Param}
    {sent : List Assignment} :
    (s.sendParams event (p :: ps)).Yields events sent events' ↔
      ∃ first events₁ others, (s.sendParam event p).Yields events first events₁ ∧
        (s.sendParams event ps).Yields events₁ others events' ∧ sent = first ++ others := by
  simp only [sendParams, Build.yields_bind, Build.yields_pure]
  constructor
  · rintro ⟨first, events₁, hp, others, _, hps, rfl, rfl⟩
    exact ⟨first, events₁, others, hp, hps, rfl⟩
  · rintro ⟨first, events₁, others, hp, hps, rfl⟩
    exact ⟨first, events₁, hp, others, events', hps, rfl, rfl⟩

/-- A **send** records and assigns its values, and then registers the automaton as a sender. -/
theorem yields_send {event : String} {params : List Param} {sent : List Assignment} :
    (s.send event params).Yields events sent events' ↔
      ∃ values events₁, (s.sendParams event params).Yields (events.ensure event) values events₁ ∧
        sent = values ++ [{ ref := .ident (event ++ ".valid"), value := .bool true }] ∧
        events' = events₁.addSender event s.automaton (sendAction event) := by
  simp only [send, Build.yields_bind, Build.yields_modify, Build.yields_pure]
  constructor
  · rintro ⟨_, _, rfl, values, events₁, hvalues, _, _, rfl, rfl, rfl⟩
    exact ⟨values, events₁, hvalues, rfl, rfl⟩
  · rintro ⟨values, events₁, hvalues, rfl, rfl⟩
    exact ⟨(), _, rfl, values, events₁, hvalues, (), _, rfl, rfl, rfl⟩

theorem yields_steps_nil :
    (s.steps path probability assignments i []).Yields events body events' ↔
      body = .finish path probability assignments ∧ events' = events := by
  simp [steps]

theorem yields_steps_assign {location expr : String} {rest : List Step} :
    (s.steps path probability assignments i (.assign location expr :: rest)).Yields
        events body events' ↔
      ∃ added, (s.scope events).assign location expr (nextIndex assignments) = .ok added ∧
        (s.steps path probability (assignments ++ added) (i + 1) rest).Yields
          events body events' := by
  simp [steps]

theorem yields_steps_send {event : String} {params : Option (List Param)} {rest : List Step} :
    (s.steps path probability assignments i (.send event params :: rest)).Yields
        events body events' ↔
      ∃ sent events₁ next, (s.send event (params.getD [])).Yields events sent events₁ ∧
        (s.steps path (.real 1) sent (i + 1) rest).Yields events₁ next events' ∧
        body =
          { head := { location := some (path.location i), probability, assignments }
            edges := (next.startingWith (path.location i) (sendAction event) none).edges
            locations := path.location i :: next.locations } := by
  simp [steps, Body.startingWith]

theorem yields_steps_choose {branches : List (String × List Step)} {other : Option (List Step)}
    {rest : List Step} :
    (s.steps path probability assignments i (.choose branches other :: rest)).Yields
        events body events' ↔
      ∃ conditions taken events₁ last events₂ next,
        (s.branches (path.fork i branches other) [] branches).Yields events (conditions, taken)
          events₁ ∧
        (s.otherwise ((path.fork i branches other).path conditions.length) other).Yields
          events₁ last events₂ ∧
        (s.steps path (.real 1) [] (i + 1) rest).Yields events₂ next events' ∧
        body =
          { head :=
              { location := some (path.fork i branches other).before, probability, assignments }
            edges :=
              taken.edges ++ ((path.fork i branches other).branch conditions none last).edges ++
              (next.startingWith (path.fork i branches other).after path.resumeAction none).edges
            locations := taken.locations ++ last.locations ++
              (path.fork i branches other).before :: (path.fork i branches other).after ::
                next.locations } := by
  simp [steps, Body.startingWith, Fragment.append, Fork.branch]

theorem yields_branches_nil {fork : Fork} {previous conditions : List Expr} {taken : Fragment} :
    (s.branches fork previous []).Yields events (conditions, taken) events' ↔
      (conditions = previous ∧ taken = {}) ∧ events' = events := by
  simp [branches]

theorem yields_branches_cons {fork : Fork} {previous conditions : List Expr} {taken : Fragment}
    {text : String} {steps : List Step} {rest : List (String × List Step)} :
    (s.branches fork previous ((text, steps) :: rest)).Yields events (conditions, taken) events' ↔
      ∃ condition body events₁ others, Source.parseFor s.event text = .ok condition ∧
        (s.steps (fork.path previous.length) (.real 1) [] 0 steps).Yields events body events₁ ∧
        (s.branches fork (previous ++ [condition]) rest).Yields events₁ (conditions, others)
          events' ∧
        taken = (fork.branch previous (some condition) body).append others := by
  simp [branches]

theorem yields_otherwise_none :
    (s.otherwise path none).Yields events body events' ↔
      body = .finish path (.real 1) [] ∧ events' = events := by
  simp [otherwise]

theorem yields_otherwise_some {steps : List Step} :
    (s.otherwise path (some steps)).Yields events body events' ↔
      (s.steps path (.real 1) [] 0 steps).Yields events body events' := by
  simp [otherwise]

end BodyScope

/-! ### Ownership -/

/-- A path **owns** a location at a step if it has the name of the step, or one that goes on from
there with an underscore. -/
def BodyPath.Owns (p : BodyPath) (i : Nat) (l : String) : Prop :=
  ∃ t, (t = "" ∨ ∃ u, t = "_" ++ u) ∧ l = p.location i ++ t

private theorem not_startsWithDigit_append {s : String} {c : Char} {cs : List Char}
    (hs : s.toList = c :: cs) (hc : c.isDigit = false) (t : String) :
    ¬ startsWithDigit (s ++ t) := by
  simp [startsWithDigit, hs, hc]

private theorem not_startsWithDigit_tail {t : String} (ht : t = "" ∨ ∃ u, t = "_" ++ u) :
    ¬ startsWithDigit t := by
  rcases ht with rfl | ⟨u, rfl⟩
  · simp [startsWithDigit]
  · exact not_startsWithDigit_append (s := "_") rfl rfl u

namespace BodyPath

variable {p : BodyPath} {i j : Nat} {l : String}

theorem owns_location (p : BodyPath) (i : Nat) : p.Owns i (p.location i) :=
  ⟨"", .inl rfl, by simp⟩

/-- A path does not own the location that it starts from. -/
theorem Owns.ne_source (h : p.Owns i l) : l ≠ p.source := by
  obtain ⟨t, -, rfl⟩ := h
  intro heq
  have hlength := congrArg String.length heq
  have hdash : "-".length = 1 := rfl
  simp only [location, String.length_append, hdash] at hlength
  omega

/-- A location is owned at one step only. -/
theorem Owns.unique (hi : p.Owns i l) (hj : p.Owns j l) : i = j := by
  obtain ⟨s, hs, rfl⟩ := hi
  obtain ⟨t, ht, h⟩ := hj
  simp only [location, String.append_assoc, String.append_right_inj] at h
  exact (Number.natText_append_inj (not_startsWithDigit_tail hs) (not_startsWithDigit_tail ht) h).1

variable (branches : List (String × List Step)) (otherwise : Option (List Step))

theorem owns_before (p : BodyPath) (i : Nat) : p.Owns i (p.fork i branches otherwise).before :=
  ⟨"_before_if", .inr ⟨"before_if", rfl⟩, rfl⟩

theorem owns_after (p : BodyPath) (i : Nat) : p.Owns i (p.fork i branches otherwise).after :=
  ⟨"_after_if", .inr ⟨"after_if", rfl⟩, rfl⟩

/-- What a branch of a choice owns, the path of the choice owns at its step. -/
theorem Owns.of_branch {k : Nat} (h : ((p.fork i branches otherwise).path k).Owns j l) :
    p.Owns i l := by
  obtain ⟨t, -, rfl⟩ := h
  refine ⟨_, .inr ⟨"before_if" ++ ("-" ++ ((p.fork i branches otherwise).path k).digest ++ "-" ++
    Number.natText j ++ t), rfl⟩, ?_⟩
  have hbefore : (p.fork i branches otherwise).before = p.location i ++ ("_" ++ "before_if") := rfl
  simp only [location, Fork.path, hbefore, String.append_assoc]

/-- A branch of a choice does not own the location after the choice. -/
theorem not_owns_after {k : Nat} :
    ¬ ((p.fork i branches otherwise).path k).Owns j (p.fork i branches otherwise).after := by
  rintro ⟨t, -, h⟩
  simp only [location, Fork.path, fork, String.append_assoc, String.append_right_inj] at h
  have hlist := congrArg String.toList h
  simp at hlist

theorem before_ne_after :
    (p.fork i branches otherwise).before ≠ (p.fork i branches otherwise).after := by
  simp [fork]

end BodyPath

namespace Fork

variable {f : Fork} {j j' k k' : Nat} {l : String}

/-- A location is owned by one branch only. -/
theorem owns_unique (h : (f.path k).Owns j l) (h' : (f.path k').Owns j' l) : k = k' := by
  obtain ⟨s, -, rfl⟩ := h
  obtain ⟨t, -, h⟩ := h'
  simp only [BodyPath.location, path, String.append_assoc, String.append_right_inj] at h
  refine (Number.natText_append_inj ?_ ?_ h).1
  · exact not_startsWithDigit_append (s := "-") rfl rfl _
  · exact not_startsWithDigit_append (s := "-") rfl rfl _

/-- A branch does not own the location before the choice. -/
theorem not_owns_before : ¬ (f.path k).Owns j f.before := by
  rintro ⟨t, -, h⟩
  have hlength := congrArg String.length h
  have hdash : "-".length = 1 := rfl
  simp only [BodyPath.location, path, String.length_append, hdash] at hlength
  omega

end Fork

/-! ### Bodies stay within their path -/

/-- A body stays **within** a path from a step on: the path owns its locations, and its edges leave
from them. -/
structure Body.Within (b : Body) (p : BodyPath) (i : Nat) : Prop where
  owned : ∀ l ∈ b.locations, ∃ j, i ≤ j ∧ p.Owns j l
  leaves : ∀ e ∈ b.edges, e.location ∈ b.locations

/-- The branches from `k` up to `n` of a choice: they own their locations, and their edges leave
from those or from before the choice. -/
structure Fragment.Within (t : Fragment) (f : Fork) (k n : Nat) : Prop where
  owned : ∀ l ∈ t.locations, ∃ m j, k ≤ m ∧ m < n ∧ (f.path m).Owns j l
  leaves : ∀ e ∈ t.edges, e.location = f.before ∨ e.location ∈ t.locations

theorem Body.Within.mono {b : Body} {p : BodyPath} {i j : Nat} (h : b.Within p j) (hij : i ≤ j) :
    b.Within p i where
  owned l hl := (h.owned l hl).imp fun _ hk => ⟨Nat.le_trans hij hk.1, hk.2⟩
  leaves := h.leaves

theorem Body.within_finish (p q : BodyPath) (probability : Expr) (assignments : List Assignment)
    (i : Nat) : (Body.finish p probability assignments).Within q i where
  owned := by simp [finish]
  leaves := by simp [finish]

namespace BodyScope

variable {s : BodyScope}

/-- Branches only add to the conditions before them. -/
theorem length_le_of_branches (branches : List (String × List Step)) {fork : Fork}
    {events events' : Events} {previous conditions : List Expr} {taken : Fragment}
    (h : (s.branches fork previous branches).Yields events (conditions, taken) events') :
    previous.length ≤ conditions.length := by
  induction branches generalizing events previous taken with
  | nil =>
    obtain ⟨⟨rfl, -⟩, -⟩ := yields_branches_nil.1 h
    exact Nat.le_refl _
  | cons b rest ih =>
    obtain ⟨condition, body, events₁, others, -, -, hrest, -⟩ := yields_branches_cons.1 h
    have := ih hrest
    simp only [List.length_append, List.length_singleton] at this
    omega

mutual

/-- The body of steps stays within its path. -/
theorem steps_within : ∀ (steps : List Step) {path : BodyPath} {probability : Expr}
    {assignments : List Assignment} {i : Nat} {events events' : Events} {body : Body},
    (s.steps path probability assignments i steps).Yields events body events' → body.Within path i
  | [], _, _, _, _, _, _, _, h => by
    obtain ⟨rfl, -⟩ := yields_steps_nil.1 h
    exact Body.within_finish _ _ _ _ _
  | .assign location expr :: rest, _, _, _, _, _, _, _, h => by
    obtain ⟨added, -, hrest⟩ := yields_steps_assign.1 h
    exact (steps_within rest hrest).mono (Nat.le_succ _)
  | .send event params :: rest, path, _, _, i, _, _, _, h => by
    obtain ⟨sent, events₁, next, -, hrest, rfl⟩ := yields_steps_send.1 h
    have ih := (steps_within rest hrest).mono (Nat.le_succ i)
    refine ⟨?_, ?_⟩
    · simp only [List.mem_cons, forall_eq_or_imp]
      exact ⟨⟨i, Nat.le_refl i, path.owns_location i⟩, ih.owned⟩
    · simp only [Body.startingWith, List.mem_cons, forall_eq_or_imp, true_or, true_and]
      exact fun e he => .inr (ih.leaves e he)
  | .choose branches other :: rest, path, _, _, i, _, _, _, h => by
    obtain ⟨conditions, taken, events₁, last, events₂, next, hb, ho, hrest, rfl⟩ :=
      yields_steps_choose.1 h
    have ihb := branches_within branches hb
    have iho := otherwise_within other ho
    have ih := (steps_within rest hrest).mono (Nat.le_succ i)
    refine ⟨?_, ?_⟩
    · simp only [List.mem_append, List.mem_cons]
      -- what a branch owns, the path owns at the step of the choice
      rintro l ((hl | hl) | rfl | rfl | hl)
      · obtain ⟨m, j, -, -, hj⟩ := ihb.owned l hl
        exact ⟨i, Nat.le_refl i, hj.of_branch⟩
      · obtain ⟨j, -, hj⟩ := iho.owned l hl
        exact ⟨i, Nat.le_refl i, hj.of_branch⟩
      · exact ⟨i, Nat.le_refl i, path.owns_before branches other i⟩
      · exact ⟨i, Nat.le_refl i, path.owns_after branches other i⟩
      · exact ih.owned l hl
    · simp only [Fork.branch, Fork.path, Body.startingWith, List.mem_append, List.mem_cons]
      -- edges leave from where the branches are, from the two places of the choice, or from later
      -- ones
      rintro e ((he | rfl | he) | rfl | he)
      · rcases ihb.leaves e he with h | h <;> simp [h]
      · simp
      · simp [iho.leaves e he]
      · simp
      · simp [ih.leaves e he]

/-- The branches of a choice stay within the choice. -/
theorem branches_within : ∀ (branches : List (String × List Step)) {fork : Fork}
    {events events' : Events} {previous conditions : List Expr} {taken : Fragment},
    (s.branches fork previous branches).Yields events (conditions, taken) events' →
      taken.Within fork previous.length conditions.length
  | [], _, _, _, _, _, _, h => by
    obtain ⟨⟨-, rfl⟩, -⟩ := yields_branches_nil.1 h
    exact ⟨by simp, by simp⟩
  | (text, steps) :: rest, fork, _, _, previous, conditions, _, h => by
    obtain ⟨condition, body, events₁, others, -, hbody, hrest, rfl⟩ := yields_branches_cons.1 h
    have ihbody := steps_within steps hbody
    have ih := branches_within rest hrest
    have hlength := length_le_of_branches rest hrest
    simp only [List.length_append, List.length_singleton] at ih hlength
    refine ⟨?_, ?_⟩
    · simp only [Fragment.append, Fork.branch, Body.startingWith, List.mem_append]
      rintro l (hl | hl)
      · obtain ⟨j, -, hj⟩ := ihbody.owned l hl
        exact ⟨previous.length, j, Nat.le_refl _, by omega, hj⟩
      · obtain ⟨m, j, hm, hm', hj⟩ := ih.owned l hl
        exact ⟨m, j, by omega, hm', hj⟩
    · simp only [Fragment.append, Fork.branch, Fork.path, Body.startingWith, List.mem_append,
        List.mem_cons]
      rintro e ((rfl | he) | he)
      · simp
      · simp [ihbody.leaves e he]
      · rcases ih.leaves e he with h | h <;> simp [h]

/-- What is done otherwise stays within its path. -/
theorem otherwise_within : ∀ (other : Option (List Step)) {path : BodyPath}
    {events events' : Events} {body : Body},
    (s.otherwise path other).Yields events body events' → body.Within path 0
  | none, _, _, _, _, h => by
    obtain ⟨rfl, -⟩ := yields_otherwise_none.1 h
    exact Body.within_finish _ _ _ _ _
  | some steps, _, _, _, _, h => steps_within steps (yields_otherwise_some.1 h)

end

end BodyScope

end ChartNet
