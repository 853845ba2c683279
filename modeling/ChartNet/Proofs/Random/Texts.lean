import ChartNet.Proofs.Body.Locations
import ChartNet.Proofs.Body.Steps
import ChartNet.Proofs.Chart.Written

/-!
# Where distributions are written

A chart may write a distribution in any of its expressions. Probabilities are evaluated when a
body is compiled, so they have none; what a body assigns to, and the guards of its edges, have one
only if it is **written** in the location that is assigned to, or in a condition that the guard is
made of. `BodyScope.steps_drawFrom` says this of the steps of a body, whatever branches they have.
-/

namespace ChartNet

/-! ### Random expressions -/

namespace Expr

@[simp] theorem isRandom_ident (x : String) : (ident x).isRandom = false := rfl

@[simp] theorem isRandom_lit (v : Literal) : (lit v).isRandom = false := rfl

@[simp] theorem isRandom_array (v : ArrayValue) : (array v).isRandom = false := rfl

@[simp] theorem isRandom_uniform (l u : Float) : (uniform l u).isRandom = true := rfl

@[simp] theorem isRandom_unary (op : UnaryOp) (a : Expr) :
    (unary op a).isRandom = a.isRandom := by
  simp [isRandom, any, isUniform]

@[simp] theorem isRandom_binary (op : BinaryOp) (a b : Expr) :
    (binary op a b).isRandom = (a.isRandom || b.isRandom) := by
  simp [isRandom, any, isUniform]

@[simp] theorem isRandom_ternary (op : TernaryOp) (a b c : Expr) :
    (ternary op a b c).isRandom = (a.isRandom || b.isRandom || c.isRandom) := by
  simp [isRandom, any, isUniform]

@[simp] theorem isRandom_quaternary (op : QuaternaryOp) (a b c d : Expr) :
    (quaternary op a b c d).isRandom =
      (a.isRandom || b.isRandom || c.isRandom || d.isRandom) := by
  simp [isRandom, any, isUniform]

@[simp] theorem isRandom_mapNames (f : String → String) (e : Expr) :
    (e.mapNames f).isRandom = e.isRandom := by
  induction e <;> simp_all [mapNames]

@[simp] theorem isRandom_withEvent (event : Option String) (e : Expr) :
    (e.withEvent event).isRandom = e.isRandom := by
  cases event <;> simp [withEvent]

theorem isRandom_foldl_access (e : Expr) (indexes : List Expr) :
    (indexes.foldl access e).isRandom = (e.isRandom || indexes.any (·.isRandom)) := by
  induction indexes generalizing e with
  | nil => simp
  | cons i is ih => simp [ih, access, Bool.or_assoc]

end Expr

/-- An expression **contains** another one: that is the expression itself, or stands below it. -/
def Expr.Contains (e p : Expr) : Prop :=
  e.any (fun x => decide (x = p)) = true

namespace Expr.Contains

theorem refl (e : Expr) : e.Contains e := by
  cases e <;> simp [Contains, any]

theorem unary {op : UnaryOp} {a p : Expr} (h : a.Contains p) : (Expr.unary op a).Contains p := by
  simp_all [Contains, any]

theorem left {op : BinaryOp} {a b p : Expr} (h : a.Contains p) : (binary op a b).Contains p := by
  simp_all [Contains, any]

theorem right {op : BinaryOp} {a b p : Expr} (h : b.Contains p) : (binary op a b).Contains p := by
  simp_all [Contains, any]

end Expr.Contains

/-- A guard is random only if one of the conditions is that it is made of. -/
theorem exists_isRandom_of_guardAfter {previous : List Expr} {current : Option Expr}
    (h : (guardAfter previous current).isRandom = true) :
    ∃ p, (p ∈ previous ∨ current = some p) ∧ p.isRandom = true ∧
      (guardAfter previous current).Contains p := by
  induction previous using List.reverseRecOn with
  | nil =>
    cases current with
    | none => simp [Expr.bool] at h
    | some p => exact ⟨p, .inr rfl, by simpa using h, .refl p⟩
  | append_singleton previous q ih =>
    simp only [guardAfter_append_singleton, Expr.and, Expr.not, Expr.isRandom_binary,
      Expr.isRandom_unary, Bool.or_eq_true] at h ⊢
    rcases h with h | h
    · obtain ⟨p, hp, hrandom, hcontains⟩ := ih h
      exact ⟨p, hp.imp_left (List.mem_append_left _), hrandom, hcontains.left⟩
    · exact ⟨q, .inl (by simp), h, (Expr.Contains.refl q).unary.right⟩

namespace AccessChain

/-- A variable is random in its indexes only. -/
theorem isRandom_toExpr (c : AccessChain) :
    c.toExpr.isRandom = c.indexes.any (·.isRandom) := by
  simp [toExpr, Expr.isRandom_foldl_access]

/-- The length of a dimension has some of the indexes. -/
theorem isRandom_dimensionLength {root : String} {n : Nat} {indexes : List Expr}
    (h : (dimensionLength root n indexes).isRandom = true) :
    indexes.any (·.isRandom) = true := by
  rw [dimensionLength, Expr.isRandom_foldl_access, Expr.isRandom_ident, Bool.false_or,
    List.any_eq_true] at h
  obtain ⟨i, hi, hrandom⟩ := h
  exact List.any_eq_true.2 ⟨i, List.mem_of_mem_take hi, hrandom⟩

end AccessChain

namespace Source

/-- Some texts **write** an expression if one of them stands for it at some event. -/
def Writes (texts : List String) (e : Expr) : Prop :=
  ∃ t ∈ texts, ∃ event, parseFor event t = .ok e

theorem Writes.mono {texts texts' : List String} {e : Expr} (h : Writes texts e)
    (htexts : texts ⊆ texts') : Writes texts' e := by
  obtain ⟨t, ht, event, hparse⟩ := h
  exact ⟨t, htexts ht, event, hparse⟩

/-- Where the data of an event can be read, a text stands for the same expression up to names. -/
theorem parseFor_eq (event : Option String) (text : String) :
    parseFor event text = (parse text).map (·.withEvent event) := by
  unfold parseFor parse
  cases read text with
  | error err => rfl
  | ok s =>
    cases hmeaning : s.meaning with
    | plain e => simp [hmeaning, Except.map, bind, Except.bind, pure, Except.pure, Expr.withEvent]
    | literal form value =>
      cases form <;> cases event <;>
        simp [hmeaning, Except.map, bind, Except.bind, pure, Except.pure, Expr.withEvent,
          Meaning.expr, Expr.mapNames, failType]

end Source

/-! ### Where edges draw -/

/-- The conditions and locations of a step are among some texts. -/
structure Step.WrittenIn (conditions locations : List String) (x : Step) : Prop where
  conditions : x.conditions ⊆ conditions
  locations : x.locations ⊆ locations

/-- What is assigned to **draws from** some texts: if it is random, they write a random target, and
it is that target or a length at its indexes. -/
def Assignment.DrawsFrom (locations : List String) (a : Assignment) : Prop :=
  a.ref.isRandom = true → ∃ target c, Source.Writes locations target ∧ target.isRandom = true ∧
    target.chain? = some c ∧
    (a.ref = target ∨ ∃ k, a.ref = AccessChain.dimensionLength c.root k c.indexes)

/-- A destination **draws from** some texts in what it assigns to, and never in its probability. -/
structure Destination.DrawsFrom (locations : List String) (d : Destination) : Prop where
  probability : d.probability.isRandom = false
  refs : ∀ a ∈ d.assignments, a.DrawsFrom locations

/-- An edge **draws from** some texts in its guard and in what it assigns to, and never in a
probability; its values do not count. A random guard contains a random condition that is written. -/
structure Edge.DrawsFrom (conditions locations : List String) (e : Edge) : Prop where
  guard : ∀ g, e.guard = some g → g.isRandom = true →
    ∃ p, Source.Writes conditions p ∧ p.isRandom = true ∧ g.Contains p
  destinations : ∀ d ∈ e.destinations, d.DrawsFrom locations

section Mono

variable {conditions conditions' locations locations' : List String}

theorem Assignment.DrawsFrom.mono {a : Assignment} (h : a.DrawsFrom locations)
    (hlocations : locations ⊆ locations') : a.DrawsFrom locations' := by
  intro hrandom
  obtain ⟨target, c, hwritten, hrest⟩ := h hrandom
  exact ⟨target, c, hwritten.mono hlocations, hrest⟩

theorem Edge.DrawsFrom.mono {e : Edge} (h : e.DrawsFrom conditions locations)
    (hconditions : conditions ⊆ conditions') (hlocations : locations ⊆ locations') :
    e.DrawsFrom conditions' locations' where
  guard g hg hrandom := by
    obtain ⟨p, hp, hrest⟩ := h.guard g hg hrandom
    exact ⟨p, hp.mono hconditions, hrest⟩
  destinations d hd :=
    ⟨(h.destinations d hd).probability,
      fun a ha => ((h.destinations d hd).refs a ha).mono hlocations⟩

end Mono

variable {conditions locations : List String}

/-- A guard that is made of written conditions draws from them. -/
theorem writes_of_guardAfter {previous : List Expr} {current : Option Expr}
    (hprevious : ∀ p ∈ previous, Source.Writes conditions p)
    (hcurrent : ∀ p, current = some p → Source.Writes conditions p)
    (h : (guardAfter previous current).isRandom = true) :
    ∃ p, Source.Writes conditions p ∧ p.isRandom = true ∧
      (guardAfter previous current).Contains p := by
  obtain ⟨p, hp, hrest⟩ := exists_isRandom_of_guardAfter h
  exact ⟨p, hp.elim (hprevious p) (hcurrent p), hrest⟩

/-- A body on an edge of its own draws from what is written if the guard of the edge does. -/
theorem Body.drawsFrom_startingWith {b : Body} (hhead : b.head.DrawsFrom locations)
    (hedges : ∀ e ∈ b.edges, e.DrawsFrom conditions locations) {location action : String}
    {guard : Option Expr} (hguard : ∀ g, guard = some g → g.isRandom = true →
      ∃ p, Source.Writes conditions p ∧ p.isRandom = true ∧ g.Contains p) :
    ∀ e ∈ (b.startingWith location action guard).edges, e.DrawsFrom conditions locations := by
  simp only [startingWith, List.forall_mem_cons]
  exact ⟨⟨hguard, by simpa using hhead⟩, hedges⟩

/-! ### Assignments -/

namespace Scope

variable {scope : Scope} {r : Rank} {as : List Assignment}

/-- A whole array is assigned to by names. -/
theorem ref_of_assignArray {target : String} {shape : ArrayShape} {source : Source}
    (h : scope.assignArray target shape source r = .ok as) : ∀ a ∈ as, a.ref.isRandom = false := by
  intro a ha
  have href : a.ref ∈ as.map (·.ref) := List.mem_map_of_mem ha
  rw [refs_assignArray h] at href
  obtain ⟨x, -, heq⟩ := List.mem_map.1 href
  rw [← heq, Expr.isRandom_ident]

/-- An assignment is to something random only if that is written so. -/
theorem drawsFrom_of_assign {location text : String} (h : scope.assign location text r = .ok as)
    (hlocation : location ∈ locations) : ∀ a ∈ as, a.DrawsFrom locations := by
  have hfirst : ∀ {c : AccessChain}, Source.parseFor scope.event location = .ok c.toExpr →
      ∀ value index, Assignment.DrawsFrom locations { ref := c.toExpr, value, index } :=
    fun {c} htarget value index hrandom =>
      ⟨_, c, ⟨location, hlocation, _, htarget⟩, hrandom, c.chain?_toExpr, .inl rfl⟩
  cases assigns_of_assign h with
  | @scalar x _ _ htarget =>
    exact List.forall_mem_singleton.2 (hfirst (c := ⟨x, []⟩) htarget _ _)
  | whole _ _ _ harray =>
    exact fun a ha hrandom => absurd hrandom (by simp [ref_of_assignArray harray a ha])
  | @element c _ _ htarget =>
    refine List.forall_mem_cons.2 ⟨hfirst htarget _ _, fun a ha => ?_⟩
    -- the lengths that are widened are those at the indexes
    obtain ⟨i, -, rfl⟩ := List.mem_mapIdx.1 ha
    refine fun hrandom =>
      ⟨_, c, ⟨location, hlocation, _, htarget⟩, ?_, c.chain?_toExpr, .inr ⟨i + 1, rfl⟩⟩
    rw [c.isRandom_toExpr]
    exact AccessChain.isRandom_dimensionLength hrandom

end Scope

/-! ### Bodies -/

namespace BodyScope

variable {s : BodyScope} {events events' : Events} {sent : List Assignment}

/-- A value is sent in a field, which has a name. -/
theorem ref_of_sendParam {event : String} {p : Param}
    (h : (s.sendParam event p).Yields events sent events') :
    ∀ a ∈ sent, a.ref.isRandom = false := by
  obtain ⟨source, given, type, -, -, -, hassigned⟩ := yields_sendParam.1 h
  rcases hassigned with ⟨shape, as, -, rfl, has⟩ | ⟨-, value, -, rfl⟩
  · exact List.forall_mem_map.2 fun a ha => Scope.ref_of_assignArray has a ha
  · simp

/-- A **send** assigns to names. -/
theorem ref_of_send {event : String} {params : List Param}
    (h : (s.send event params).Yields events sent events') :
    ∀ a ∈ sent, a.ref.isRandom = false := by
  have hparams : ∀ (params : List Param) {events events' : Events} {sent : List Assignment},
      (s.sendParams event params).Yields events sent events' → ∀ a ∈ sent,
        a.ref.isRandom = false := by
    intro params
    induction params with
    | nil =>
      intro events events' sent h
      obtain ⟨rfl, -⟩ := yields_sendParams_nil.1 h
      simp
    | cons p ps ih =>
      intro events events' sent h
      obtain ⟨first, _, others, hp, hps, rfl⟩ := yields_sendParams_cons.1 h
      exact List.forall_mem_append.2 ⟨ref_of_sendParam hp, ih hps⟩
  obtain ⟨values, _, hvalues, rfl, -⟩ := yields_send.1 h
  exact List.forall_mem_append.2 ⟨hparams params hvalues, by simp⟩

mutual

/-- **Steps draw only from what is written in them**, except in the values that they assign. -/
theorem steps_drawFrom : ∀ (steps : List Step) {path : BodyPath} {probability : Expr}
    {assignments : List Assignment} {i : Nat} {events events' : Events} {body : Body},
    (∀ x ∈ stepsAmong steps, x.WrittenIn conditions locations) → probability.isRandom = false →
    (∀ a ∈ assignments, a.DrawsFrom locations) →
    (s.steps path probability assignments i steps).Yields events body events' →
      body.head.DrawsFrom locations ∧ ∀ e ∈ body.edges, e.DrawsFrom conditions locations
  | [], _, _, _, _, _, _, _, _, hprobability, hassigned, h => by
    obtain ⟨rfl, -⟩ := yields_steps_nil.1 h
    exact ⟨⟨hprobability, hassigned⟩, by simp [Body.finish]⟩
  | .assign location expr :: rest, _, _, _, _, _, _, _, hwritten, hprobability, hassigned, h => by
    obtain ⟨added, hadded, hrest⟩ := yields_steps_assign.1 h
    rw [stepsAmong, List.forall_mem_cons] at hwritten
    have hlocation : location ∈ locations := hwritten.1.locations (by simp [Step.locations])
    exact steps_drawFrom rest hwritten.2 hprobability
      (List.forall_mem_append.2 ⟨hassigned, Scope.drawsFrom_of_assign hadded hlocation⟩) hrest
  | .send event params :: rest, _, _, _, _, _, _, _, hwritten, hprobability, hassigned, h => by
    obtain ⟨sent, events₁, next, hsent, hrest, rfl⟩ := yields_steps_send.1 h
    rw [stepsAmong, List.forall_mem_cons] at hwritten
    obtain ⟨hhead, hedges⟩ := steps_drawFrom rest hwritten.2 rfl
      (fun a ha hrandom => absurd hrandom (by simp [ref_of_send hsent a ha])) hrest
    exact ⟨⟨hprobability, hassigned⟩, Body.drawsFrom_startingWith hhead hedges (by simp)⟩
  | .choose branches other :: rest, _, _, _, _, _, _, _, hwritten, hprobability, hassigned, h => by
    obtain ⟨conditions, taken, events₁, last, events₂, next, hb, ho, hrest, rfl⟩ :=
      yields_steps_choose.1 h
    simp only [stepsAmong, List.forall_mem_cons, List.forall_mem_append] at hwritten
    obtain ⟨hchoice, ⟨hbranches, hother⟩, hafter⟩ := hwritten
    obtain ⟨htaken, hconditions⟩ :=
      branches_drawFrom branches hchoice.conditions hbranches (by simp) hb
    obtain ⟨hlast, hlastEdges⟩ := otherwise_drawsFrom other hother ho
    obtain ⟨hhead, hedges⟩ := steps_drawFrom rest hafter rfl (by simp) hrest
    refine ⟨⟨hprobability, hassigned⟩, List.forall_mem_append.2
      ⟨List.forall_mem_append.2 ⟨htaken, Body.drawsFrom_startingWith hlast hlastEdges ?_⟩,
        Body.drawsFrom_startingWith hhead hedges (by simp)⟩⟩
    rintro g ⟨⟩ hrandom
    exact writes_of_guardAfter hconditions (by simp) hrandom

/-- Branches draw only from what is written in them, and their conditions are written. -/
theorem branches_drawFrom : ∀ (branches : List (String × List Step)) {fork : Fork}
    {events events' : Events} {previous joint : List Expr} {taken : Fragment},
    branches.map (·.1) ⊆ conditions →
    (∀ x ∈ stepsAmongBranches branches, x.WrittenIn conditions locations) →
    (∀ p ∈ previous, Source.Writes conditions p) →
    (s.branches fork previous branches).Yields events (joint, taken) events' →
      (∀ e ∈ taken.edges, e.DrawsFrom conditions locations) ∧
        ∀ p ∈ joint, Source.Writes conditions p
  | [], _, _, _, _, _, _, _, _, hprevious, h => by
    obtain ⟨⟨rfl, rfl⟩, -⟩ := yields_branches_nil.1 h
    exact ⟨by simp, hprevious⟩
  | (text, steps) :: rest, _, _, _, previous, _, _, htexts, hwritten, hprevious, h => by
    obtain ⟨condition, body, events₁, others, hcondition, hbody, hrest, rfl⟩ :=
      yields_branches_cons.1 h
    rw [List.map_cons, List.cons_subset] at htexts
    rw [stepsAmongBranches, List.forall_mem_append] at hwritten
    have hown : Source.Writes conditions condition := ⟨text, htexts.1, _, hcondition⟩
    obtain ⟨hhead, hedges⟩ := steps_drawFrom steps hwritten.1 rfl (by simp) hbody
    obtain ⟨hothers, hjoint⟩ := branches_drawFrom rest htexts.2 hwritten.2
      (List.forall_mem_append.2 ⟨hprevious, by simpa using hown⟩) hrest
    refine ⟨List.forall_mem_append.2 ⟨Body.drawsFrom_startingWith hhead hedges ?_, hothers⟩, hjoint⟩
    rintro g ⟨⟩ hrandom
    exact writes_of_guardAfter hprevious (by simpa using hown) hrandom

/-- What is done otherwise draws only from what is written in it. -/
theorem otherwise_drawsFrom : ∀ (other : Option (List Step)) {path : BodyPath}
    {events events' : Events} {body : Body},
    (∀ x ∈ stepsAmongOtherwise other, x.WrittenIn conditions locations) →
    (s.otherwise path other).Yields events body events' →
      body.head.DrawsFrom locations ∧ ∀ e ∈ body.edges, e.DrawsFrom conditions locations
  | none, _, _, _, _, _, h => by
    obtain ⟨rfl, -⟩ := yields_otherwise_none.1 h
    exact ⟨⟨rfl, by simp [Body.finish]⟩, by simp [Body.finish]⟩
  | some steps, _, _, _, _, hwritten, h => by
    rw [stepsAmongOtherwise] at hwritten
    exact steps_drawFrom steps hwritten rfl (by simp) (yields_otherwise_some.1 h)

end

end BodyScope

end ChartNet
