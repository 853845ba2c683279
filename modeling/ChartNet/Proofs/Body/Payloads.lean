import ChartNet.Proofs.Body.Actions
import ChartNet.Proofs.Body.Phases
import ChartNet.Proofs.Body.Steps

/-!
# Payloads of bodies

The **payload** of a send are the assignments of its values to the fields of the event, with the
lengths of arrays, and that the event is valid. They have one index, so they are written together.

The edge of a send **carries** its payload: the assignments of the send stand first on it, and
whatever steps follow on the same edge assign at higher indexes. So before anything is expanded, the
payload of a send is written as a whole by the step that sends.
-/

namespace ChartNet

/-! ### What a send writes -/

namespace BodyScope

variable {s : BodyScope} {event : String} {events events' : Events} {sent : List Assignment}

/-- The value of a field is written at the lowest index. -/
private theorem spec_of_sendParam {p : Param}
    (h : (s.sendParam event p).Yields events sent events') :
    (∀ a ∈ sent, a.index = .zero) ∧ ∃ a ∈ sent, a.ref = .ident (event ++ "." ++ p.name) := by
  obtain ⟨source, given, type, -, -, -, hassigned⟩ := yields_sendParam.1 h
  rcases hassigned with ⟨shape, as, -, rfl, has⟩ | ⟨-, value, -, rfl⟩
  · obtain ⟨value, lengths, -, rfl⟩ := Scope.storing_of_assignArray has
    exact ⟨by simp, _, List.mem_map_of_mem List.mem_cons_self, rfl⟩
  · simp

private theorem spec_of_sendParams (params : List Param)
    (h : (s.sendParams event params).Yields events sent events') :
    (∀ a ∈ sent, a.index = .zero) ∧
      ∀ p ∈ params, ∃ a ∈ sent, a.ref = .ident (event ++ "." ++ p.name) := by
  induction params generalizing events events' sent with
  | nil =>
    obtain ⟨rfl, -⟩ := yields_sendParams_nil.1 h
    simp
  | cons p ps ih =>
    obtain ⟨first, _, others, hp, hps, rfl⟩ := yields_sendParams_cons.1 h
    obtain ⟨hindex, a, ha, href⟩ := spec_of_sendParam hp
    obtain ⟨hindexes, hfields⟩ := ih hps
    refine ⟨List.forall_mem_append.2 ⟨hindex, hindexes⟩, List.forall_mem_cons.2 ⟨?_, ?_⟩⟩
    · exact ⟨a, List.mem_append_left _ ha, href⟩
    · intro q hq
      obtain ⟨b, hb, hbref⟩ := hfields q hq
      exact ⟨b, List.mem_append_right _ hb, hbref⟩

/-- A **send** writes a value for each of its fields, and that the event is valid, all together. -/
theorem spec_of_send {params : List Param} (h : (s.send event params).Yields events sent events') :
    (∀ a ∈ sent, a.index = .zero) ∧
      (∀ p ∈ params, ∃ a ∈ sent, a.ref = .ident (event ++ "." ++ p.name)) ∧
      ∃ values, sent = values ++ [{ ref := .ident (event ++ ".valid"), value := .bool true }] := by
  obtain ⟨values, _, hvalues, rfl, -⟩ := yields_send.1 h
  obtain ⟨hindex, hfields⟩ := spec_of_sendParams params hvalues
  refine ⟨List.forall_mem_append.2 ⟨hindex, by simp⟩, fun p hp => ?_, values, rfl⟩
  obtain ⟨a, ha, href⟩ := hfields p hp
  exact ⟨a, List.mem_append_left _ ha, href⟩

end BodyScope

/-! ### Edges that carry payloads -/

mutual

/-- The **sends** among steps, also within choices. -/
def sendsAmong : List Step → List (String × List Param)
  | [] => []
  | .assign _ _ :: rest => sendsAmong rest
  | .send event params :: rest => (event, params.getD []) :: sendsAmong rest
  | .choose branches otherwise :: rest =>
    sendsAmongBranches branches ++ sendsAmongOtherwise otherwise ++ sendsAmong rest

/-- The sends among the steps of branches. -/
def sendsAmongBranches : List (String × List Step) → List (String × List Param)
  | [] => []
  | (_, steps) :: rest => sendsAmong steps ++ sendsAmongBranches rest

/-- The sends among the steps that are done otherwise. -/
def sendsAmongOtherwise : Option (List Step) → List (String × List Param)
  | none => []
  | some steps => sendsAmong steps

end

/-- Assignments are the **payload** of sending an event with some values. -/
def BodyScope.IsPayload (s : BodyScope) (event : String) (params : List Param)
    (payload : List Assignment) : Prop :=
  ∃ es es', (s.send event params).Yields es payload es'

/-- An edge **carries** the payload of one of some sends if it sends at all: the payload comes
first, and everything after it has a higher index. -/
def Edge.Carries (s : BodyScope) (sends : List (String × List Param)) (e : Edge) : Prop :=
  ∀ event, e.action = some (sendAction event) →
    ∃ params payload later d, (event, params) ∈ sends ∧ s.IsPayload event params payload ∧
      e.destinations = [d] ∧ d.assignments = payload ++ later ∧
      ∀ a ∈ payload, ∀ b ∈ later, ¬ b.index.le a.index

theorem Edge.Carries.mono {s : BodyScope} {sends sends' : List (String × List Param)} {e : Edge}
    (h : e.Carries s sends) (hsends : ∀ x ∈ sends, x ∈ sends') : e.Carries s sends' := by
  intro event haction
  obtain ⟨params, payload, later, d, hmem, hrest⟩ := h event haction
  exact ⟨params, payload, later, d, hsends _ hmem, hrest⟩

/-- An edge whose action delivers nothing has no payload to carry. -/
theorem Edge.carries_of_not_isDelivery {s : BodyScope} {sends : List (String × List Param)}
    {e : Edge} {action : String} (h : e.action = some action) (hquiet : ¬ IsDelivery action) :
    e.Carries s sends := by
  intro event haction
  obtain rfl := Option.some.inj (h.symm.trans haction)
  exact absurd ⟨event, .inl rfl⟩ hquiet

namespace BodyScope

variable {s : BodyScope}

/-- What steps add to the edge under way comes after what is on it. -/
theorem head_of_steps (steps : List Step) {path : BodyPath} {probability : Expr}
    {assignments : List Assignment} {i : Nat} {events events' : Events} {body : Body}
    (h : (s.steps path probability assignments i steps).Yields events body events') :
    ∃ later, body.head.assignments = assignments ++ later ∧
      ∀ a ∈ assignments, ∀ b ∈ later, ¬ b.index.le a.index := by
  induction steps generalizing assignments i events with
  | nil =>
    obtain ⟨rfl, -⟩ := yields_steps_nil.1 h
    exact ⟨[], by simp [Body.finish], by simp⟩
  | cons step rest ih =>
    cases step with
    | assign location expr =>
      obtain ⟨added, hadded, hrest⟩ := yields_steps_assign.1 h
      obtain ⟨later, hhead, hlater⟩ := ih hrest
      refine ⟨added ++ later, by rw [hhead, List.append_assoc], fun a ha => ?_⟩
      rw [List.forall_mem_append]
      exact ⟨(s.scope events).not_le_of_assign hadded a ha,
        hlater a (List.mem_append_left _ ha)⟩
    | send event params =>
      obtain ⟨sent, events₁, next, -, -, rfl⟩ := yields_steps_send.1 h
      exact ⟨[], by simp, by simp⟩
    | choose branches other =>
      obtain ⟨conditions, taken, events₁, last, events₂, next, -, -, -, rfl⟩ :=
        yields_steps_choose.1 h
      exact ⟨[], by simp, by simp⟩

mutual

/-- The edges of steps carry the payloads of their sends. -/
theorem steps_carry : ∀ (steps : List Step) {path : BodyPath} {probability : Expr}
    {assignments : List Assignment} {i : Nat} {events events' : Events} {body : Body},
    Quiet path.digest →
    (s.steps path probability assignments i steps).Yields events body events' →
      ∀ e ∈ body.edges, e.Carries s (sendsAmong steps)
  | [], _, _, _, _, _, _, _, _, h => by
    obtain ⟨rfl, rfl⟩ := yields_steps_nil.1 h
    simp [Body.finish]
  | .assign location expr :: rest, _, _, _, _, _, _, _, hquiet, h => by
    obtain ⟨added, -, hrest⟩ := yields_steps_assign.1 h
    rw [sendsAmong]
    exact steps_carry rest hquiet hrest
  | .send event params :: rest, _, _, _, _, _, _, _, hquiet, h => by
    obtain ⟨sent, events₁, next, hsent, hrest, rfl⟩ := yields_steps_send.1 h
    have hedges := steps_carry rest hquiet hrest
    -- steps after the send add to the destination on which its payload stands
    obtain ⟨later, hhead, hlater⟩ := head_of_steps rest hrest
    simp only [Body.startingWith, sendsAmong, List.mem_cons, forall_eq_or_imp]
    refine ⟨fun event' haction => ?_,
      fun e he => (hedges e he).mono fun _ => List.mem_cons_of_mem _⟩
    obtain rfl := sendAction_injective (Option.some.inj haction)
    exact ⟨_, sent, later, next.head, List.mem_cons_self, ⟨_, _, hsent⟩, rfl, hhead, hlater⟩
  | .choose branches other :: rest, path, _, _, i, _, _, _, hquiet, h => by
    obtain ⟨conditions, taken, events₁, last, events₂, next, hb, ho, hrest, rfl⟩ :=
      yields_steps_choose.1 h
    have htaken := branches_carry branches hb
    have hlast := otherwise_carries other (Fork.quiet_digest _ _) ho
    have hnext := steps_carry rest hquiet hrest
    simp only [Fork.branch, Body.startingWith, sendsAmong, List.mem_append, List.mem_cons]
    rintro e ((he | rfl | he) | rfl | he)
    · exact (htaken e he).mono (by simp +contextual)
    · exact Edge.carries_of_not_isDelivery rfl (Fork.quiet_digest _ _).action
    · exact (hlast e he).mono (by simp +contextual)
    · exact Edge.carries_of_not_isDelivery rfl hquiet.resumeAction
    · exact (hnext e he).mono (by simp +contextual)

/-- The edges of branches carry the payloads of their sends. -/
theorem branches_carry : ∀ (branches : List (String × List Step)) {fork : Fork}
    {events events' : Events} {previous conditions : List Expr} {taken : Fragment},
    (s.branches fork previous branches).Yields events (conditions, taken) events' →
      ∀ e ∈ taken.edges, e.Carries s (sendsAmongBranches branches)
  | [], _, _, _, _, _, _, h => by
    obtain ⟨⟨-, rfl⟩, rfl⟩ := yields_branches_nil.1 h
    simp
  | (text, steps) :: rest, fork, _, _, previous, _, _, h => by
    obtain ⟨condition, body, events₁, others, -, hbody, hrest, rfl⟩ := yields_branches_cons.1 h
    have hown := steps_carry steps (Fork.quiet_digest _ _) hbody
    have hothers := branches_carry rest hrest
    simp only [Fragment.append, Fork.branch, Body.startingWith, sendsAmongBranches,
      List.mem_append, List.mem_cons]
    rintro e ((rfl | he) | he)
    · exact Edge.carries_of_not_isDelivery rfl (Fork.quiet_digest _ _).action
    · exact (hown e he).mono (by simp +contextual)
    · exact (hothers e he).mono (by simp +contextual)

/-- The edges of what is done otherwise carry the payloads of its sends. -/
theorem otherwise_carries : ∀ (other : Option (List Step)) {path : BodyPath}
    {events events' : Events} {body : Body}, Quiet path.digest →
    (s.otherwise path other).Yields events body events' →
      ∀ e ∈ body.edges, e.Carries s (sendsAmongOtherwise other)
  | none, _, _, _, _, _, h => by
    obtain ⟨rfl, rfl⟩ := yields_otherwise_none.1 h
    simp [Body.finish]
  | some steps, _, _, _, _, hquiet, h => by
    rw [sendsAmongOtherwise]
    exact steps_carry steps hquiet (yields_otherwise_some.1 h)

end

end BodyScope

end ChartNet
