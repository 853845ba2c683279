import ChartNet.Proofs.Body.Execution
import ChartNet.Proofs.Body.Locations
import ChartNet.Proofs.Body.Payloads

/-!
# Bodies do what their steps say

The edges of a body **simulate** the sequential execution of its steps. `Interpretation.Leads` says
it for one destination: from there the edges run, without a choice, through given locations to the
target, and store and sends at the end are those of the execution.

Bodies are parts of larger lists of edges, so the induction is over what the steps of a body look
like from outside: any list of edges will do that **agrees** with the body on the locations of the
body. That locations are owned by one step and by one branch is what makes the parts agree.
-/

namespace ChartNet

/-! ### Agreement -/

/-- Lists of edges **agree** on locations if the same edges leave from them, in the same order. -/
def AgreeOn (locations : List String) (E F : List Edge) : Prop :=
  ∀ l ∈ locations, E.filter (·.location == l) = F.filter (·.location == l)

theorem AgreeOn.refl (locations : List String) (E : List Edge) : AgreeOn locations E E :=
  fun _ _ => rfl

private theorem filter_location_eq_nil {F : List Edge} {l : String}
    (h : ∀ e ∈ F, e.location ≠ l) : F.filter (·.location == l) = [] :=
  List.filter_eq_nil_iff.2 fun e he => by simpa using h e he

/-- Of a list with which there is agreement only the part counts that leaves from the locations. -/
theorem AgreeOn.middle {L L' : List String} {E F G H : List Edge}
    (h : AgreeOn L E (F ++ G ++ H)) (hL : ∀ l ∈ L', l ∈ L)
    (hF : ∀ e ∈ F, e.location ∉ L') (hH : ∀ e ∈ H, e.location ∉ L') : AgreeOn L' E G := by
  intro l hl
  have hF' : F.filter (·.location == l) = [] :=
    filter_location_eq_nil fun e he heq => hF e he (heq ▸ hl)
  have hH' : H.filter (·.location == l) = [] :=
    filter_location_eq_nil fun e he heq => hH e he (heq ▸ hl)
  rw [h l (hL l hl), List.filter_append, List.filter_append, hF', hH', List.nil_append,
    List.append_nil]

namespace Interpretation

variable {I : Interpretation} {E F : List Edge} {L : List String}

theorem enabled_congr (h : AgreeOn L E F) {l : String} (hl : l ∈ L) (σ : I.Store) :
    I.enabled E l σ = I.enabled F l σ := by
  have hsplit : ∀ G : List Edge, I.enabled G l σ =
      (G.filter (·.location == l)).filter fun e => (I.judge σ).admits e.guard := by
    intro G
    rw [List.filter_filter]
    simp only [enabled, Bool.and_comm]
  rw [hsplit, hsplit, h l hl]

@[simp] theorem enabled_append (l : String) (σ : I.Store) :
    I.enabled (E ++ F) l σ = I.enabled E l σ ++ I.enabled F l σ := by
  simp [enabled]

/-- Where no edge leaves from, none is enabled. -/
theorem enabled_eq_nil {l : String} (h : ∀ e ∈ E, e.location ≠ l) (σ : I.Store) :
    I.enabled E l σ = [] :=
  List.filter_eq_nil_iff.2 fun e he => by simp [h e he]

/-- Of an edge and a body whose edges leave from elsewhere, the edge is enabled if its guard is
true. -/
theorem enabled_startingWith {b : Body} {l : String} (hb : ∀ e ∈ b.edges, e.location ≠ l)
    (action : String) (guard : Option Expr) (σ : I.Store) :
    I.enabled (b.startingWith l action guard).edges l σ =
      if (I.judge σ).admits guard then
        [{ location := l, action := some action, guard, destinations := [b.head] }]
      else [] := by
  have hrest := I.enabled_eq_nil hb σ
  unfold enabled at hrest ⊢
  rw [Body.startingWith, List.filter_cons, hrest]
  simp

/-! ### Leading to a location -/

/-- A destination **leads** to a location with an outcome: the edges run from it through the
locations `L`, and the outcome is the store at the end and the events sent on the way. -/
def Leads (I : Interpretation) (E : List Edge) (L : List String) (d : Destination) (σ : I.Store)
    (target : String) (outcome : I.Store × List String) : Prop :=
  ∃ start trace, d.location = some start ∧
    I.Run E start (I.perform d.assignments σ) trace target outcome.1 ∧
    (∀ e ∈ trace, e.location ∈ L) ∧ sendsAlong trace = outcome.2.map sendAction

namespace Leads

variable {d d' : Destination} {σ : I.Store} {target : String} {outcome : I.Store × List String}
  {e : Edge}

theorem mono {L' : List String} (h : I.Leads E L d σ target outcome) (hL : ∀ l ∈ L, l ∈ L') :
    I.Leads E L' d σ target outcome := by
  obtain ⟨start, trace, hstart, hrun, hin, hsends⟩ := h
  exact ⟨start, trace, hstart, hrun, fun e he => hL _ (hin e he), hsends⟩

/-- A destination leads on to where the one edge leads that is enabled there. -/
theorem step {l : String} {sent : List String} (hl : d.location = some l) (hL : l ∈ L)
    (henabled : I.enabled E l (I.perform d.assignments σ) = [e]) (he : e.destinations = [d'])
    (hsent : sendsAlong [e] = sent.map sendAction)
    (h : I.Leads E L d' (I.perform d.assignments σ) target outcome) :
    I.Leads E L d σ target (outcome.1, sent ++ outcome.2) := by
  obtain ⟨start, trace, hstart, hrun, hin, hsends⟩ := h
  have hmem : e ∈ I.enabled E l (I.perform d.assignments σ) := by simp [henabled]
  have hloc : e.location = l := by
    have := (List.mem_filter.1 hmem).2
    simp only [Bool.and_eq_true, beq_iff_eq] at this
    exact this.1
  refine ⟨l, e :: trace, hl, .step henabled he hstart hrun, ?_, ?_⟩
  · simp only [List.mem_cons, forall_eq_or_imp]
    exact ⟨hloc ▸ hL, hin⟩
  · rw [← List.singleton_append, sendsAlong_append, hsent, hsends, List.map_append]

/-- A destination that leads to a location leads on from there. -/
theorem trans {l : String} {first : I.Store × List String} (h : I.Leads E L d σ l first)
    (hL : l ∈ L) (henabled : I.enabled E l first.1 = [e]) (he : e.destinations = [d'])
    (hsent : sendsAlong [e] = []) (h' : I.Leads E L d' first.1 target outcome) :
    I.Leads E L d σ target (outcome.1, first.2 ++ outcome.2) := by
  obtain ⟨start, trace, hstart, hrun, hin, hsends⟩ := h
  obtain ⟨start', trace', hl, hrun', hin', hsends'⟩ :=
    step (d := { location := some l, assignments := [] }) (σ := first.1) rfl hL
      (by simpa using henabled) he (show sendsAlong [e] = [].map sendAction by simpa using hsent)
      (by simpa using h')
  obtain rfl : l = start' := by simpa using hl
  refine ⟨start, trace ++ trace', hstart, hrun.append (by simpa using hrun'), ?_, ?_⟩
  · intro e he
    rcases List.mem_append.1 he with he | he
    · exact hin e he
    · exact hin' e he
  · rw [sendsAlong_append, hsends, hsends']
    simp

end Leads

end Interpretation

/-! ### Sends and actions -/

/-- An edge of its own along a path sends nothing if the digest of the path is no send. -/
theorem BodyPath.isSend_action (p : BodyPath) : isSend p.action = isSend p.digest := by
  have hdash : p.action = p.source ++ "-" ++ p.target ++ "-parent" ++ "-" ++ p.digest := by
    simp [action, String.append_assoc]
  rw [hdash, isSend_dash_append]

theorem BodyPath.isSend_resumeAction (p : BodyPath) : isSend p.resumeAction = isSend p.digest :=
  isSend_dash_append _ _

@[simp] theorem Fork.isSend_digest (f : Fork) (k : Nat) : isSend (f.path k).digest = false := by
  rw [path, isSend_dash_append, isSend_natText]

/-! ### Bodies and branches -/

/-- A body **simulates** tasks after assignments that stand on its first edge already. -/
def Body.Simulates (b : Body) (target : String) (before : List Assignment) (tasks : List Task) :
    Prop :=
  ∀ (I : Interpretation) (E : List Edge), AgreeOn b.locations E b.edges → ∀ σ : I.Store,
    I.Leads E b.locations b.head σ target (I.execute tasks (I.perform before σ))

/-- The branches of a choice **simulate** tasks after branches with the conditions `previous`:
before the choice none of them is enabled if an earlier condition is true or no own one, and
otherwise exactly the first one whose condition is true. -/
structure Fragment.Simulates (t : Fragment) (f : Fork) (previous : List Expr)
    (tasks : List (Expr × List Task)) : Prop where
  idle : ∀ (I : Interpretation) (σ : I.Store),
    (∃ c ∈ previous, (I.judge σ).holds c) ∨ I.executeFirst tasks σ = none →
      I.enabled t.edges f.before σ = []
  first : ∀ (I : Interpretation) (E : List Edge), AgreeOn t.locations E t.edges →
    ∀ (σ : I.Store) (outcome : I.Store × List String),
      (∀ c ∈ previous, (I.judge σ).holds c = false) → I.executeFirst tasks σ = some outcome →
        ∃ e d, I.enabled t.edges f.before σ = [e] ∧ e.destinations = [d] ∧ sendsAlong [e] = [] ∧
          I.Leads E t.locations d σ f.after outcome

/-- No branch is executed if no condition is true. -/
theorem Interpretation.executeFirst_eq_none {I : Interpretation} {σ : I.Store}
    {tasks : List (Expr × List Task)} :
    I.executeFirst tasks σ = none ↔ ∀ c ∈ tasks.map (·.1), (I.judge σ).holds c = false := by
  induction tasks with
  | nil => simp [executeFirst]
  | cons b rest ih =>
    obtain ⟨condition, tasks⟩ := b
    cases h : (I.judge σ).holds condition
    · simpa [executeFirst, h] using ih
    · simp [executeFirst, h]

/-- The edge of a branch is enabled if its condition is true and none of the earlier ones. -/
theorem Fork.enabled_branch {f : Fork} {previous : List Expr} {b : Body}
    (hb : b.Within (f.path previous.length) 0) (condition : Option Expr) (I : Interpretation)
    (σ : I.Store) :
    ∃ e, e.destinations = [b.head] ∧ sendsAlong [e] = [] ∧
      I.enabled (f.branch previous condition b).edges f.before σ =
        if (I.judge σ).admits condition && previous.all (fun p => !(I.judge σ).holds p) then [e]
        else [] := by
  have hleave : ∀ e ∈ b.edges, e.location ≠ f.before := by
    intro e he heq
    obtain ⟨j, -, hj⟩ := hb.owned _ (hb.leaves e he)
    exact Fork.not_owns_before (heq ▸ hj)
  have henabled := I.enabled_startingWith hleave (f.path previous.length).action
    (some (guardAfter previous condition)) σ
  rw [Valuation.admits_some, Valuation.holds_guardAfter] at henabled
  refine ⟨_, rfl, ?_, henabled⟩
  simp [sendsAlong, BodyPath.isSend_action]

/-! ### The simulation -/

section Parts

variable {s : BodyScope} {path : BodyPath} {i : Nat}

/-- What follows a step is apart from the locations of the step. -/
theorem Body.Within.not_mem_of_owns {b : Body} (h : b.Within path (i + 1)) {l : String}
    (hl : path.Owns i l) : l ∉ b.locations := by
  intro hmem
  obtain ⟨j, hj, howns⟩ := h.owned l hmem
  have := hl.unique howns
  omega

/-- Going to the end of the path simulates doing nothing. -/
theorem Body.simulates_finish (path : BodyPath) (probability : Expr) (before : List Assignment) :
    (Body.finish path probability before).Simulates path.target before [] := by
  intro I E _ σ
  rw [Interpretation.execute]
  exact ⟨path.target, [], rfl, .stop _ _, by simp, rfl⟩

/-- **Sending** and then going on simulates the send before the tasks that follow. -/
theorem Body.simulates_send {event : String} {sent : List Assignment} {next : Body}
    {tasks : List Task} (hsent : ∀ a ∈ sent, a.index = .zero) (hnext : next.Within path (i + 1))
    (h : next.Simulates path.target sent tasks) (probability : Expr)
    (before : List Assignment) :
    Body.Simulates
      { head := { location := some (path.location i), probability, assignments := before }
        edges := (next.startingWith (path.location i) (sendAction event) none).edges
        locations := path.location i :: next.locations }
      path.target before (.send event sent :: tasks) := by
  intro I E hagree σ
  have hleave : ∀ e ∈ next.edges, e.location ≠ path.location i := fun e he heq =>
    hnext.not_mem_of_owns (path.owns_location i) (heq ▸ hnext.leaves e he)
  have henabled := I.enabled_congr hagree (List.mem_cons_self ..) (I.perform before σ)
  rw [I.enabled_startingWith hleave, Valuation.admits_none, if_pos rfl] at henabled
  have hrest : AgreeOn next.locations E next.edges := by
    refine AgreeOn.middle (F := [_]) (H := []) (by simpa [Body.startingWith] using hagree)
      (fun l => List.mem_cons_of_mem _) ?_ (by simp)
    simpa using hnext.not_mem_of_owns (path.owns_location i)
  have hlead := (h I E hrest (I.perform before σ)).mono fun l =>
    List.mem_cons_of_mem (path.location i)
  rw [I.perform_of_index hsent] at hlead
  rw [Interpretation.execute]
  refine Interpretation.Leads.step
    (d := { location := some (path.location i), probability, assignments := before }) rfl
    (List.mem_cons_self ..) henabled rfl (?_ : _ = [event].map sendAction) hlead
  simp [sendsAlong]

end Parts

section Branches

variable {f : Fork} {previous : List Expr} {n : Nat}

theorem Body.Within.before_not_mem {b : Body} {k : Nat} (h : b.Within (f.path k) i) :
    f.before ∉ b.locations := by
  intro hl
  obtain ⟨j, -, hj⟩ := h.owned _ hl
  exact Fork.not_owns_before hj

theorem Fragment.Within.before_not_mem {t : Fragment} {k : Nat} (h : t.Within f k n) :
    f.before ∉ t.locations := by
  intro hl
  obtain ⟨m, j, -, -, hj⟩ := h.owned _ hl
  exact Fork.not_owns_before hj

/-- A branch and later branches of a choice share no locations. -/
theorem Fragment.Within.disjoint {b : Body} {t : Fragment} {k m : Nat}
    (hb : b.Within (f.path m) i) (ht : t.Within f k n) (hm : m < k ∨ n ≤ m) {l : String}
    (hl : l ∈ b.locations) : l ∉ t.locations := by
  intro hl'
  obtain ⟨j, -, hj⟩ := hb.owned l hl
  obtain ⟨m', j', hk, hn, hj'⟩ := ht.owned l hl'
  have := Fork.owns_unique hj hj'
  omega

/-- A **branch** before others simulates its tasks before theirs. -/
theorem Fragment.simulates_cons {condition : Expr} {b : Body} {others : Fragment}
    {tasks : List Task} {rest : List (Expr × List Task)}
    (hb : b.Within (f.path previous.length) 0) (hsim : b.Simulates f.after [] tasks)
    (ho : others.Within f (previous.length + 1) n)
    (hothers : others.Simulates f (previous ++ [condition]) rest) :
    ((f.branch previous (some condition) b).append others).Simulates f previous
      ((condition, tasks) :: rest) := by
  refine ⟨?_, ?_⟩
  · intro I σ hidle
    obtain ⟨e, -, -, henabled⟩ := f.enabled_branch hb (some condition) I σ
    rw [append, I.enabled_append, henabled]
    rcases hidle with ⟨c, hc, hholds⟩ | hnone
    · rw [hothers.idle I σ (.inl ⟨c, by simp [hc], hholds⟩)]
      have hall : previous.all (fun p => !(I.judge σ).holds p) = false := by
        simpa using ⟨c, hc, hholds⟩
      simp [hall]
    · rw [I.executeFirst_eq_none] at hnone
      rw [hothers.idle I σ (.inr (I.executeFirst_eq_none.2 fun c hc => hnone c (by simp_all)))]
      simp [hnone condition (by simp)]
  · intro I E hagree σ outcome hprevious hfirst
    obtain ⟨e, he, hsends, henabled⟩ := f.enabled_branch hb (some condition) I σ
    have hall : previous.all (fun p => !(I.judge σ).holds p) = true := by
      simpa using hprevious
    rw [hall, Bool.and_true, Valuation.admits_some] at henabled
    rw [append, I.enabled_append, henabled]
    cases hcond : (I.judge σ).holds condition with
    | true =>
      -- this branch is taken, and the later ones are idle because its condition is true
      simp only [Interpretation.executeFirst, hcond, if_true, Option.some.injEq] at hfirst
      subst hfirst
      rw [hothers.idle I σ (.inl ⟨condition, by simp, hcond⟩)]
      refine ⟨e, b.head, by simp, he, hsends, ?_⟩
      have hpart : AgreeOn b.locations E b.edges := by
        refine AgreeOn.middle (F := [_]) (by simpa [append, Fork.branch, Body.startingWith] using
          hagree) (fun l hl => List.mem_append_left _ hl) ?_ ?_
        · simpa [Fork.path] using hb.before_not_mem
        · intro e he hmem
          rcases ho.leaves e he with h | h
          · exact hb.before_not_mem (h ▸ hmem)
          · exact Fragment.Within.disjoint hb ho (.inl (Nat.lt_succ_self _)) hmem h
      have hlead := hsim I E hpart σ
      rw [I.perform_nil] at hlead
      exact hlead.mono fun l hl => List.mem_append_left _ hl
    | false =>
      simp only [Interpretation.executeFirst, hcond] at hfirst
      have hpart : AgreeOn others.locations E others.edges := by
        refine AgreeOn.middle (F := _ :: b.edges) (H := [])
          (by simpa [append, Fork.branch, Body.startingWith] using hagree)
          (fun l hl => List.mem_append_right _ hl) ?_ (by simp)
        simp only [List.mem_cons, forall_eq_or_imp]
        refine ⟨by simpa [Fork.path] using ho.before_not_mem, fun e he hmem => ?_⟩
        exact Fragment.Within.disjoint hb ho (.inl (Nat.lt_succ_self _)) (hb.leaves e he) hmem
      obtain ⟨e', d, henabled', he', hsends', hlead⟩ := hothers.first I E hpart σ outcome
        (by simpa [or_imp, forall_and, hcond] using hprevious) (by simpa using hfirst)
      exact ⟨e', d, by simpa using henabled', he', hsends',
        hlead.mono fun l hl => List.mem_append_right _ hl⟩

/-- Before a choice **exactly one** edge is enabled, and it leads to what is after the choice: that
of the first branch whose condition is true, or else of what is done otherwise. -/
theorem Fork.leads_after {I : Interpretation} {E : List Edge} {taken : Fragment} {last : Body}
    {tasks : List (Expr × List Task)} {lastTasks : List Task}
    (htaken : taken.Simulates f [] tasks) (hagree : AgreeOn taken.locations E taken.edges)
    (hl : last.Within (f.path (tasks.map (·.1)).length) 0)
    (hlast : last.Simulates f.after [] lastTasks)
    (hagree' : AgreeOn last.locations E last.edges) (σ : I.Store) :
    ∃ e d, I.enabled (taken.edges ++ (f.branch (tasks.map (·.1)) none last).edges)
      f.before σ = [e] ∧
      e.destinations = [d] ∧ sendsAlong [e] = [] ∧
      I.Leads E (taken.locations ++ last.locations) d σ f.after
        ((I.executeFirst tasks σ).getD (I.execute lastTasks σ)) := by
  obtain ⟨e, he, hsends, henabled⟩ := f.enabled_branch hl none I σ
  rw [I.enabled_append, henabled, Valuation.admits_none, Bool.true_and]
  cases hfirst : I.executeFirst tasks σ with
  | none =>
    have hall : (tasks.map (·.1)).all (fun p => !(I.judge σ).holds p) = true := by
      simpa using I.executeFirst_eq_none.1 hfirst
    have hlead := hlast I E hagree' σ
    rw [I.perform_nil] at hlead
    rw [htaken.idle I σ (.inr hfirst), hall]
    exact ⟨e, last.head, rfl, he, hsends, hlead.mono fun l hl => List.mem_append_right _ hl⟩
  | some outcome =>
    have hall : (tasks.map (·.1)).all (fun p => !(I.judge σ).holds p) = false := by
      rw [Bool.eq_false_iff]
      intro hall
      rw [I.executeFirst_eq_none.2 (by simpa using hall)] at hfirst
      simp at hfirst
    obtain ⟨e, d, henabled, he, hsends, hlead⟩ :=
      htaken.first I E hagree σ outcome (by simp) hfirst
    rw [henabled, hall]
    exact ⟨e, d, by simp, he, hsends, hlead.mono fun l hl => List.mem_append_left _ hl⟩

/-- A choice **stands at** a step of a path: the path owns the locations of the choice there. -/
structure Fork.StandsAt (f : Fork) (p : BodyPath) (i : Nat) : Prop where
  before : p.Owns i f.before
  after : p.Owns i f.after
  before_ne_after : f.before ≠ f.after
  branch : ∀ {k j : Nat} {l : String}, (f.path k).Owns j l → p.Owns i l ∧ l ≠ f.after

theorem BodyPath.fork_standsAt (p : BodyPath) (i : Nat) (branches : List (String × List Step))
    (other : Option (List Step)) : (p.fork i branches other).StandsAt p i where
  before := p.owns_before branches other i
  after := p.owns_after branches other i
  before_ne_after := before_ne_after branches other
  branch h := ⟨h.of_branch, fun heq => not_owns_after branches other (heq ▸ h)⟩

section Choice

variable {path : BodyPath} {i : Nat} {taken : Fragment} {last next : Body} {conditions : List Expr}
  {L : List String} {E : List Edge}

/-- The edges of the branches, and of what is done otherwise, leave from before the choice or from
inside a branch. -/
theorem Fork.StandsAt.branches_leave (hf : f.StandsAt path i) (ht : taken.Within f 0 n)
    (hl : last.Within (f.path n) 0) :
    ∀ e ∈ taken.edges ++ (f.branch conditions none last).edges,
      path.Owns i e.location ∧ e.location ≠ f.after := by
  intro e he
  rcases List.mem_append.1 he with he | he
  · rcases ht.leaves e he with h | h
    · exact h ▸ ⟨hf.before, hf.before_ne_after⟩
    · obtain ⟨m, j, -, -, hj⟩ := ht.owned _ h
      exact hf.branch hj
  · rcases List.mem_cons.1 he with rfl | he
    · exact ⟨hf.before, hf.before_ne_after⟩
    · obtain ⟨j, -, hj⟩ := hl.owned _ (hl.leaves e he)
      exact hf.branch hj

/-- The edges after a choice leave from the location there or from one that a later step owns. -/
theorem Body.Within.resumed_leaves (hn : next.Within path (i + 1)) :
    ∀ e ∈ (next.startingWith f.after path.resumeAction none).edges,
      ∀ l, path.Owns i l → l ≠ f.after → e.location ≠ l := by
  intro e he l hl hafter heq
  rcases List.mem_cons.1 he with rfl | he
  · exact hafter heq.symm
  · exact hn.not_mem_of_owns hl (heq ▸ hn.leaves e he)

variable (hagree : AgreeOn L E (taken.edges ++ (f.branch conditions none last).edges ++
  (next.startingWith f.after path.resumeAction none).edges))

include hagree

theorem Fork.StandsAt.agreeOn_taken (hf : f.StandsAt path i) (ht : taken.Within f 0 n)
    (hl : last.Within (f.path n) 0) (hn : next.Within path (i + 1))
    (hL : ∀ l ∈ taken.locations, l ∈ L) : AgreeOn taken.locations E taken.edges := by
  refine AgreeOn.middle (F := []) (by simpa using hagree) hL (by simp) fun e he hmem => ?_
  obtain ⟨m, j, -, -, hj⟩ := ht.owned _ hmem
  rcases List.mem_append.1 he with he | he
  · rcases List.mem_cons.1 he with rfl | he
    · exact ht.before_not_mem hmem
    · exact Fragment.Within.disjoint hl ht (.inr (Nat.le_refl _)) (hl.leaves e he) hmem
  · exact hn.resumed_leaves e he _ (hf.branch hj).1 (hf.branch hj).2 rfl

theorem Fork.StandsAt.agreeOn_last (hf : f.StandsAt path i) (ht : taken.Within f 0 n)
    (hl : last.Within (f.path n) 0) (hn : next.Within path (i + 1))
    (hL : ∀ l ∈ last.locations, l ∈ L) : AgreeOn last.locations E last.edges := by
  refine AgreeOn.middle (F := taken.edges ++ [_])
    (by simpa [Fork.branch, Body.startingWith] using hagree) hL ?_ (fun e he hmem => ?_)
  · intro e he hmem
    rcases List.mem_append.1 he with he | he
    · rcases ht.leaves e he with h | h
      · exact hl.before_not_mem (h ▸ hmem)
      · exact Fragment.Within.disjoint hl ht (.inr (Nat.le_refl _)) hmem h
    · obtain rfl := List.mem_singleton.1 he
      exact hl.before_not_mem hmem
  · obtain ⟨j, -, hj⟩ := hl.owned _ hmem
    exact hn.resumed_leaves e he _ (hf.branch hj).1 (hf.branch hj).2 rfl

theorem Fork.StandsAt.agreeOn_next (hf : f.StandsAt path i) (ht : taken.Within f 0 n)
    (hl : last.Within (f.path n) 0) (hn : next.Within path (i + 1))
    (hL : ∀ l ∈ next.locations, l ∈ L) : AgreeOn next.locations E next.edges := by
  refine AgreeOn.middle (H := []) (F := taken.edges ++ (f.branch conditions none last).edges ++ [_])
    (by simpa [Fork.branch, Body.startingWith] using hagree) hL ?_ (by simp)
  intro e he hmem
  rcases List.mem_append.1 he with he | he
  · exact hn.not_mem_of_owns (hf.branches_leave ht hl e he).1 hmem
  · obtain rfl := List.mem_singleton.1 he
    exact hn.not_mem_of_owns hf.after hmem

/-- Before the choice no edge of what follows is enabled. -/
theorem Fork.StandsAt.enabled_before (hf : f.StandsAt path i) (hn : next.Within path (i + 1))
    (hL : f.before ∈ L) (I : Interpretation) (σ : I.Store) :
    I.enabled E f.before σ =
      I.enabled (taken.edges ++ (f.branch conditions none last).edges) f.before σ := by
  rw [I.enabled_congr hagree hL, I.enabled_append, I.enabled_eq_nil fun e he =>
    hn.resumed_leaves e he _ hf.before hf.before_ne_after, List.append_nil]

/-- After the choice exactly the edge to what follows is enabled. -/
theorem Fork.StandsAt.enabled_after (hf : f.StandsAt path i) (ht : taken.Within f 0 n)
    (hl : last.Within (f.path n) 0) (hn : next.Within path (i + 1)) (hL : f.after ∈ L)
    (I : Interpretation) (σ : I.Store) :
    I.enabled E f.after σ =
      [{ location := f.after, action := some path.resumeAction, destinations := [next.head] }] := by
  have hleave : ∀ e ∈ next.edges, e.location ≠ f.after := fun e he heq =>
    hn.not_mem_of_owns hf.after (heq ▸ hn.leaves e he)
  rw [I.enabled_congr hagree hL, I.enabled_append,
    I.enabled_eq_nil fun e he => (hf.branches_leave ht hl e he).2, I.enabled_startingWith hleave]
  rfl

end Choice

/-- A **choice** simulates its branches and what is done otherwise, and then the tasks that
follow. -/
theorem Body.simulates_choose {path : BodyPath} {taken : Fragment} {last next : Body}
    {tasks : List (Expr × List Task)} {lastTasks nextTasks : List Task}
    (hf : f.StandsAt path i) (hdigest : isSend path.digest = false)
    (ht : taken.Within f 0 (tasks.map (·.1)).length) (htaken : taken.Simulates f [] tasks)
    (hl : last.Within (f.path (tasks.map (·.1)).length) 0)
    (hlast : last.Simulates f.after [] lastTasks)
    (hn : next.Within path (i + 1)) (hnext : next.Simulates path.target [] nextTasks)
    (probability : Expr) (before : List Assignment) :
    Body.Simulates
      { head := { location := some f.before, probability, assignments := before }
        edges := taken.edges ++ (f.branch (tasks.map (·.1)) none last).edges ++
          (next.startingWith f.after path.resumeAction none).edges
        locations := taken.locations ++ last.locations ++ f.before :: f.after :: next.locations }
      path.target before (.choose tasks lastTasks :: nextTasks) := by
  intro I E hagree σ
  have htaken' := hf.agreeOn_taken hagree ht hl hn (by simp +contextual)
  have hlast' := hf.agreeOn_last hagree ht hl hn (by simp +contextual)
  have hnext' := hf.agreeOn_next hagree ht hl hn (by simp +contextual)
  -- the run passes one edge of a branch, the branch, and the edge that goes on after the choice
  obtain ⟨e, d, he, hd, hsends, hlead⟩ := f.leads_after htaken htaken' hl hlast hlast'
    (I.perform before σ)
  have henabled : I.enabled E f.before (I.perform before σ) = [e] :=
    (hf.enabled_before hagree hn (by simp) I _).trans he
  have hresume := hf.enabled_after hagree ht hl hn (by simp) I
  have hrest := hnext I E hnext'
  simp only [I.perform_nil] at hrest
  have hquiet : ∀ e : Edge, e.action = some path.resumeAction → sendsAlong [e] = [] := by
    intro e he
    simp [sendsAlong, he, BodyPath.isSend_resumeAction, hdigest]
  have htail := Interpretation.Leads.trans (L := taken.locations ++ last.locations ++
    f.before :: f.after :: next.locations) (hlead.mono fun l hl => List.mem_append_left _ hl)
    (by simp) (hresume _) rfl (hquiet _ rfl) ((hrest _).mono fun l hl => by simp [hl])
  have hnothing : sendsAlong [e] = ([] : List String).map sendAction := hsends
  have hwhole := Interpretation.Leads.step
    (d := { location := some f.before, probability, assignments := before }) rfl (by simp) henabled
    hd hnothing htail
  rw [Interpretation.execute]
  exact hwhole

end Branches

namespace BodyScope

variable {s : BodyScope}

mutual

/-- The body of steps simulates the tasks that the steps are. -/
theorem steps_simulate : ∀ (steps : List Step) {path : BodyPath} {probability : Expr}
    {assignments : List Assignment} {i : Nat} {events events' : Events} {body : Body},
    isSend path.digest = false →
    (s.steps path probability assignments i steps).Yields events body events' →
      ∃ tasks, (s.tasks steps).Yields events tasks events' ∧
        body.Simulates path.target assignments tasks
  | [], path, _, assignments, _, events, _, _, _, h => by
    obtain ⟨rfl, rfl⟩ := yields_steps_nil.1 h
    exact ⟨[], by simp [tasks], Body.simulates_finish _ _ _⟩
  | .assign location expr :: rest, path, _, assignments, _, events, _, _, hdigest, h => by
    obtain ⟨added, hadded, hrest⟩ := yields_steps_assign.1 h
    -- alone the assignments are counted from zero, which does not change what they do
    obtain ⟨alone, halone, hperform⟩ := (s.scope events).perform_assign hadded
    obtain ⟨ts, hts, hsim⟩ := steps_simulate rest hdigest hrest
    refine ⟨.assign alone :: ts, by simp [tasks, halone, hts], fun I E hagree σ => ?_⟩
    rw [Interpretation.execute, ← hperform]
    exact hsim I E hagree σ
  | .send event params :: rest, path, probability, assignments, i, events, _, _, hdigest, h => by
    obtain ⟨sent, events₁, next, hsent, hrest, rfl⟩ := yields_steps_send.1 h
    obtain ⟨ts, hts, hsim⟩ := steps_simulate rest hdigest hrest
    refine ⟨.send event sent :: ts, ?_, ?_⟩
    · simp only [tasks, Build.yields_bind, Build.yields_pure]
      exact ⟨sent, events₁, hsent, ts, _, hts, rfl, rfl⟩
    · exact Body.simulates_send (spec_of_send hsent).1 (steps_within rest hrest) hsim _ _
  | .choose branches other :: rest, path, _, _, i, _, _, _, hdigest, h => by
    obtain ⟨conditions, taken, events₁, last, events₂, next, hb, ho, hrest, rfl⟩ :=
      yields_steps_choose.1 h
    obtain ⟨bs, hbs, hconditions, htaken⟩ := branches_simulate branches hb
    obtain ⟨os, hos, hlast⟩ := otherwise_simulates other (Fork.isSend_digest _ _) ho
    obtain ⟨ts, hts, hnext⟩ := steps_simulate rest hdigest hrest
    refine ⟨.choose bs os :: ts, ?_, ?_⟩
    · simp only [tasks, Build.yields_bind, Build.yields_pure]
      exact ⟨bs, events₁, hbs, os, events₂, hos, ts, _, hts, rfl, rfl⟩
    · obtain rfl : conditions = bs.map (·.1) := by simpa using hconditions
      exact Body.simulates_choose (path.fork_standsAt i branches other) hdigest
        (branches_within branches hb) htaken (otherwise_within other ho) hlast
        (steps_within rest hrest) hnext _ _

/-- The branches of a choice simulate their tasks. -/
theorem branches_simulate : ∀ (branches : List (String × List Step)) {fork : Fork}
    {events events' : Events} {previous conditions : List Expr} {taken : Fragment},
    (s.branches fork previous branches).Yields events (conditions, taken) events' →
      ∃ tasks, (s.branchTasks branches).Yields events tasks events' ∧
        conditions = previous ++ tasks.map (·.1) ∧ taken.Simulates fork previous tasks
  | [], fork, _, _, previous, _, _, h => by
    obtain ⟨⟨rfl, rfl⟩, rfl⟩ := yields_branches_nil.1 h
    refine ⟨[], by simp [branchTasks], by simp, ⟨fun I σ _ => rfl, fun I E _ σ o _ h => ?_⟩⟩
    simp [Interpretation.executeFirst] at h
  | (text, steps) :: rest, fork, _, _, previous, conditions, _, h => by
    obtain ⟨condition, body, events₁, others, hc, hbody, hrest, rfl⟩ := yields_branches_cons.1 h
    obtain ⟨ts, hts, hsim⟩ := steps_simulate steps (Fork.isSend_digest _ _) hbody
    obtain ⟨bs, hbs, hconditions, hothers⟩ := branches_simulate rest hrest
    have hwithin := branches_within rest hrest
    rw [List.length_append, List.length_singleton] at hwithin
    refine ⟨(condition, ts) :: bs, ?_, by simp [hconditions], ?_⟩
    · simp only [branchTasks, Build.yields_bind, Build.yields_ofResult, Build.yields_pure]
      exact ⟨condition, _, ⟨hc, rfl⟩, ts, events₁, hts, bs, _, hbs, rfl, rfl⟩
    · exact Fragment.simulates_cons (steps_within steps hbody) hsim hwithin hothers

/-- What is done otherwise simulates its tasks. -/
theorem otherwise_simulates : ∀ (other : Option (List Step)) {path : BodyPath}
    {events events' : Events} {body : Body}, isSend path.digest = false →
    (s.otherwise path other).Yields events body events' →
      ∃ tasks, (s.otherwiseTasks other).Yields events tasks events' ∧
        body.Simulates path.target [] tasks
  | none, path, _, _, _, _, h => by
    obtain ⟨rfl, rfl⟩ := yields_otherwise_none.1 h
    exact ⟨[], by simp [otherwiseTasks], Body.simulates_finish _ _ _⟩
  | some steps, _, _, _, _, hdigest, h => by
    rw [otherwiseTasks]
    exact steps_simulate steps hdigest (yields_otherwise_some.1 h)

end

/-! ### Failing -/

/-- The **effect** of a build is all of it but its value: whether it fails, how, and what it
leaves. -/
def effect {α : Type} (x : EventM α) : EventM Unit :=
  x >>= fun _ => pure ()

private theorem effect_bind {α β : Type} (x : EventM α) (f : α → EventM β) :
    effect (x >>= f) = x >>= fun a => effect (f a) := by
  simp [effect]

private theorem effect_bind_pure {α β : Type} (x : EventM α) (f : α → β) :
    effect (x >>= fun a => pure (f a)) = effect x := by
  simp [effect]

/-- Of parts whose values are not used only the effects count. -/
private theorem effect_bind_congr {α α' β β' γ : Type} {x : EventM α} {y : EventM α'}
    {f : α → EventM β} {g : α' → EventM β'} (z : EventM γ) (h : effect x = effect y)
    (hf : ∀ a, effect (f a) = effect z) (hg : ∀ b, effect (g b) = effect z) :
    effect (x >>= f) = effect (y >>= g) := by
  have hx : ∀ {δ : Type} (x : EventM δ),
      (x >>= fun _ => effect z) = effect x >>= fun _ => effect z := by
    intro δ x
    simp [effect]
  rw [effect_bind, effect_bind, funext hf, funext hg, hx x, hx y, h]

private theorem effect_ofResult_assign (scope : Scope) (location text : String) (r : Rank) :
    effect (.ofResult (scope.assign location text r)) =
      effect (.ofResult (scope.assign location text .zero)) := by
  have hmap : ∀ r, effect (.ofResult (scope.assign location text r)) =
      .ofResult ((scope.assign location text r).map fun _ => ()) := by
    intro r
    cases scope.assign location text r <;> rfl
  rw [hmap, hmap, scope.discard_assign location text r .zero]

mutual

private theorem effect_steps : ∀ (steps : List Step) (path : BodyPath) (probability : Expr)
    (assignments : List Assignment) (i : Nat),
    effect (s.steps path probability assignments i steps) = effect (s.tasks steps)
  | [], _, _, _, _ => by simp [BodyScope.steps, tasks, effect]
  | .assign location expr :: rest, path, probability, assignments, i => by
    rw [BodyScope.steps, tasks, effect_bind, effect_bind]
    refine bind_congr fun events => ?_
    refine effect_bind_congr (s.tasks rest) (effect_ofResult_assign _ _ _ _) (fun added => ?_)
      fun alone => effect_bind_pure _ _
    exact effect_steps rest _ _ _ _
  | .send event params :: rest, path, probability, assignments, i => by
    rw [BodyScope.steps, tasks, effect_bind, effect_bind]
    refine bind_congr fun sent => ?_
    exact (effect_bind_pure _ _).trans
      ((effect_steps rest _ _ _ _).trans (effect_bind_pure _ _).symm)
  | .choose branches other :: rest, path, probability, assignments, i => by
    rw [BodyScope.steps, tasks]
    refine effect_bind_congr (do let _ ← s.otherwiseTasks other; s.tasks rest)
      (effect_branches branches _ _) (fun taken => ?_) fun tasks => ?_
    · refine effect_bind_congr (s.tasks rest) (effect_otherwise other _) (fun last => ?_)
        fun _ => rfl
      exact (effect_bind_pure _ _).trans (effect_steps rest _ _ _ _)
    · exact effect_bind_congr (s.tasks rest) rfl (fun _ => effect_bind_pure _ _) fun _ => rfl

private theorem effect_branches : ∀ (branches : List (String × List Step)) (fork : Fork)
    (previous : List Expr),
    effect (s.branches fork previous branches) = effect (s.branchTasks branches)
  | [], _, _ => by simp [BodyScope.branches, branchTasks, effect]
  | (text, steps) :: rest, fork, previous => by
    rw [BodyScope.branches, branchTasks, effect_bind, effect_bind]
    refine bind_congr fun condition => ?_
    refine effect_bind_congr (s.branchTasks rest) (effect_steps steps _ _ _ _) (fun body => ?_)
      fun _ => effect_bind_pure _ _
    exact (effect_bind_pure _ _).trans (effect_branches rest _ _)

private theorem effect_otherwise : ∀ (other : Option (List Step)) (path : BodyPath),
    effect (s.otherwise path other) = effect (s.otherwiseTasks other)
  | none, _ => by simp [BodyScope.otherwise, otherwiseTasks, effect]
  | some steps, path => by
    rw [BodyScope.otherwise, otherwiseTasks]
    exact effect_steps steps _ _ _ _

end

/-! ### The main result -/

/-- The edge that a body starts on keeps its probability. -/
private theorem probability_of_steps (steps : List Step) {path : BodyPath} {probability : Expr}
    {assignments : List Assignment} {i : Nat} {events events' : Events} {body : Body}
    (h : (s.steps path probability assignments i steps).Yields events body events') :
    body.head.probability = probability := by
  induction steps generalizing assignments i events with
  | nil =>
    obtain ⟨rfl, -⟩ := yields_steps_nil.1 h
    rfl
  | cons step rest ih =>
    cases step with
    | assign location expr =>
      obtain ⟨added, -, hrest⟩ := yields_steps_assign.1 h
      exact ih hrest
    | send event params =>
      obtain ⟨sent, events₁, next, -, -, rfl⟩ := yields_steps_send.1 h
      rfl
    | choose branches other =>
      obtain ⟨conditions, taken, events₁, last, events₂, next, -, -, -, rfl⟩ :=
        yields_steps_choose.1 h
      rfl

/-- **Bodies keep the meaning of their steps.** Steps are refused only if they cannot be read, and
with the same error. Otherwise the destination of the body leads to the target of the path: in each
location on the way exactly one edge is enabled, and store and sends at the end are those of the
sequential execution. At the target no edge of the body goes on. The digest of a path is never the
name of a send, since digests consist of hexadecimal digits. -/
theorem compile_leads (s : BodyScope) (path : BodyPath) (probability : Expr) (steps : List Step)
    (hdigest : isSend path.digest = false) :
    effect (s.compile path probability steps) = effect (s.tasks steps) ∧
    ∀ (events : Events) (body : Body) (events' : Events),
      (s.compile path probability steps).Yields events body events' →
      path.target ∉ body.locations →
      body.head.probability = probability ∧
      ∃ tasks, (s.tasks steps).Yields events tasks events' ∧
        ∀ (I : Interpretation) (σ : I.Store),
          I.Leads body.edges body.locations body.head σ path.target (I.execute tasks σ) ∧
          ∀ τ : I.Store, I.enabled body.edges path.target τ = [] := by
  refine ⟨effect_steps steps path probability [] 0, fun events body events' h htarget => ?_⟩
  obtain ⟨tasks, htasks, hsim⟩ := steps_simulate steps hdigest h
  refine ⟨probability_of_steps steps h, tasks, htasks, fun I σ => ⟨?_, fun τ => ?_⟩⟩
  · have hlead := hsim I body.edges (AgreeOn.refl _ _) σ
    rwa [I.perform_nil] at hlead
  · refine I.enabled_eq_nil (fun e he heq => htarget ?_) τ
    exact heq ▸ (steps_within steps h).leaves e he

/-- A body that assigns, sends in a branch and sends again keeps its meaning. -/
theorem compile_leads_of_choice :
    let s : BodyScope := { automaton := "robot", vars := fun _ => some .bool, capacity := .whole 3 }
    let path : BodyPath := { source := "idle", target := "busy", digest := "0c" }
    let steps : List Step :=
      [.assign "x" "y", .choose [("x && !z", [.send "go" none])] none, .send "done" none]
    isSend path.digest = false ∧ ∃ body events' tasks,
      (s.compile path (.real 1) steps).Yields {} body events' ∧ path.target ∉ body.locations ∧
      (s.tasks steps).Yields {} tasks events' ∧ ∀ (I : Interpretation) (σ : I.Store),
        I.Leads body.edges body.locations body.head σ path.target (I.execute tasks σ) := by
  intro s path steps
  have hdigest : isSend path.digest = false := by decide
  obtain ⟨body, events', h⟩ :=
    Build.exists_yields (x := s.compile path (.real 1) steps) (s := {}) (by decide +kernel)
  have htarget : path.target ∉ body.locations := by
    intro hmem
    obtain ⟨j, -, t, -, ht⟩ := (steps_within steps h).owned _ hmem
    have hlist := congrArg String.toList ht
    simp [path, BodyPath.location] at hlist
  obtain ⟨-, tasks, htasks, hleads⟩ :=
    (compile_leads s path (.real 1) steps hdigest).2 {} body events' h htarget
  exact ⟨hdigest, body, events', tasks, h, htarget, htasks, fun I σ => (hleads I σ).1⟩

end BodyScope

end ChartNet
