import ChartNet.Proofs.Body.Locations
import ChartNet.Proofs.Registry

/-!
# Actions of bodies

The edges that a body adds **send** events or do something of their own. Whoever sends an event is
registered as its sender, and no edge of a body receives anything. Both rest on how names are made:
the names of all other actions end in a dash and a digest or a number.
-/

namespace ChartNet

/-- A digest is **quiet** if no name that ends in a dash and the digest delivers an event. -/
def Quiet (digest : String) : Prop :=
  ∀ x : String, ¬ IsDelivery (x ++ "-" ++ digest)

theorem quiet_digest (parts : List Json) : Quiet (digest parts) :=
  fun x => not_isDelivery_of_dash x (not_mem_digest parts)

theorem Fork.quiet_digest (f : Fork) (k : Nat) : Quiet (f.path k).digest := by
  intro x
  have hdash : x ++ "-" ++ (f.path k).digest = x ++ "-" ++ f.stem ++ "-" ++ Number.natText k := by
    simp [path, String.append_assoc]
  rw [hdash]
  exact not_isDelivery_of_dash _ (Number.not_mem_natText (by decide) k)

theorem Quiet.action {p : BodyPath} (h : Quiet p.digest) : ¬ IsDelivery p.action := by
  have hdash : p.action = p.source ++ "-" ++ p.target ++ "-parent" ++ "-" ++ p.digest := by
    simp [BodyPath.action, String.append_assoc]
  exact hdash ▸ h _

theorem Quiet.resumeAction {p : BodyPath} (h : Quiet p.digest) : ¬ IsDelivery p.resumeAction :=
  h _

/-- An edge **sends or is quiet**: its action is that of sending an event for which the automaton is
registered, or it delivers nothing. -/
def Edge.SendsOrQuiet (es : Events) (automaton : String) (e : Edge) : Prop :=
  ∃ action, e.action = some action ∧
    ((∃ event, action = sendAction event ∧ es.Registers .sender event automaton) ∨
      ¬ IsDelivery action)

theorem Edge.SendsOrQuiet.mono {es es' : Events} {automaton : String} {e : Edge}
    (h : e.SendsOrQuiet es automaton) (hes : es.Extends automaton es') :
    e.SendsOrQuiet es' automaton := by
  obtain ⟨action, haction, hsends | hquiet⟩ := h
  · obtain ⟨event, hevent, hregistered⟩ := hsends
    exact ⟨action, haction, .inl ⟨event, hevent, hes.kept hregistered⟩⟩
  · exact ⟨action, haction, .inr hquiet⟩

/-- An edge that sends or is quiet does not receive. -/
theorem Edge.SendsOrQuiet.action_ne {es : Events} {automaton : String} {e : Edge}
    (h : e.SendsOrQuiet es automaton) (event : String) : e.action ≠ some (receiveAction event) := by
  obtain ⟨action, haction, hcase⟩ := h
  rw [haction]
  rintro heq
  obtain rfl := Option.some.inj heq
  rcases hcase with ⟨other, hother, -⟩ | hquiet
  · exact sendAction_ne_receiveAction other event hother.symm
  · exact hquiet ⟨event, .inr rfl⟩

namespace BodyScope

variable {s : BodyScope}

/-! ### Sending -/

private theorem extends_recordField {event field : String} {type type' : DataType}
    {events events' : Events} (automaton : String)
    (h : (EventM.recordField event field type).Yields events type' events') :
    events.Extends automaton events' := by
  have hstate : events' = (events.recordPayload event [(field, type)]).2 :=
    (congrArg Prod.snd h).symm
  rw [hstate]
  exact Events.extends_recordPayload automaton events event _

private theorem extends_sendParam {event : String} {p : Param} {events events' : Events}
    {sent : List Assignment} (h : (s.sendParam event p).Yields events sent events') :
    events.Extends s.automaton events' := by
  obtain ⟨source, given, type, -, -, hrecord, -⟩ := yields_sendParam.1 h
  exact extends_recordField s.automaton hrecord

private theorem extends_sendParams {event : String} (params : List Param) {events events' : Events}
    {sent : List Assignment} (h : (s.sendParams event params).Yields events sent events') :
    events.Extends s.automaton events' := by
  induction params generalizing events events' sent with
  | nil =>
    obtain ⟨-, rfl⟩ := yields_sendParams_nil.1 h
    exact .refl _ _
  | cons p ps ih =>
    obtain ⟨_, events₁, _, hp, hps, -⟩ := yields_sendParams_cons.1 h
    exact (extends_sendParam hp).trans (ih hps)

/-- A send **registers** the automaton as a sender. -/
theorem extends_send {event : String} {params : List Param} {events events' : Events}
    {sent : List Assignment} (h : (s.send event params).Yields events sent events') :
    events.Extends s.automaton events' ∧ events'.Registers .sender event s.automaton := by
  obtain ⟨_, events₁, hvalues, -, rfl⟩ := yields_send.1 h
  refine ⟨?_, Events.registers_addSender _ _ _ _⟩
  exact ((Events.extends_ensure _ _ _).trans (extends_sendParams params hvalues)).trans
    (Events.extends_addSender _ _ _ _)

/-! ### Steps -/

mutual

/-- The edges of steps send or are quiet, and registrations stay. -/
theorem steps_sendOrQuiet : ∀ (steps : List Step) {path : BodyPath} {probability : Expr}
    {assignments : List Assignment} {i : Nat} {events events' : Events} {body : Body},
    Quiet path.digest →
    (s.steps path probability assignments i steps).Yields events body events' →
      events.Extends s.automaton events' ∧ ∀ e ∈ body.edges, e.SendsOrQuiet events' s.automaton
  | [], _, _, _, _, _, _, _, _, h => by
    obtain ⟨rfl, rfl⟩ := yields_steps_nil.1 h
    exact ⟨.refl _ _, by simp [Body.finish]⟩
  | .assign location expr :: rest, _, _, _, _, _, _, _, hquiet, h => by
    obtain ⟨added, -, hrest⟩ := yields_steps_assign.1 h
    exact steps_sendOrQuiet rest hquiet hrest
  | .send event params :: rest, _, _, _, _, _, _, _, hquiet, h => by
    obtain ⟨sent, events₁, next, hsent, hrest, rfl⟩ := yields_steps_send.1 h
    obtain ⟨hext, hregistered⟩ := extends_send hsent
    obtain ⟨hext', hedges⟩ := steps_sendOrQuiet rest hquiet hrest
    refine ⟨hext.trans hext', ?_⟩
    simp only [Body.startingWith, List.mem_cons, forall_eq_or_imp]
    exact ⟨⟨_, rfl, .inl ⟨event, rfl, hext'.kept hregistered⟩⟩, hedges⟩
  | .choose branches other :: rest, path, _, _, i, _, _, _, hquiet, h => by
    obtain ⟨conditions, taken, events₁, last, events₂, next, hb, ho, hrest, rfl⟩ :=
      yields_steps_choose.1 h
    obtain ⟨hext₁, htaken⟩ := branches_sendOrQuiet branches hb
    obtain ⟨hext₂, hlast⟩ := otherwise_sendOrQuiet other (Fork.quiet_digest _ _) ho
    obtain ⟨hext₃, hnext⟩ := steps_sendOrQuiet rest hquiet hrest
    refine ⟨hext₁.trans (hext₂.trans hext₃), ?_⟩
    simp only [Fork.branch, Body.startingWith, List.mem_append, List.mem_cons]
    rintro e ((he | rfl | he) | rfl | he)
    · exact (htaken e he).mono (hext₂.trans hext₃)
    · exact ⟨_, rfl, .inr (Fork.quiet_digest _ _).action⟩
    · exact (hlast e he).mono hext₃
    · exact ⟨_, rfl, .inr hquiet.resumeAction⟩
    · exact hnext e he

/-- The edges of branches send or are quiet. -/
theorem branches_sendOrQuiet : ∀ (branches : List (String × List Step)) {fork : Fork}
    {events events' : Events} {previous conditions : List Expr} {taken : Fragment},
    (s.branches fork previous branches).Yields events (conditions, taken) events' →
      events.Extends s.automaton events' ∧ ∀ e ∈ taken.edges, e.SendsOrQuiet events' s.automaton
  | [], _, _, _, _, _, _, h => by
    obtain ⟨⟨-, rfl⟩, rfl⟩ := yields_branches_nil.1 h
    exact ⟨.refl _ _, by simp⟩
  | (text, steps) :: rest, fork, _, _, previous, _, _, h => by
    obtain ⟨condition, body, events₁, others, -, hbody, hrest, rfl⟩ := yields_branches_cons.1 h
    obtain ⟨hext₁, hown⟩ := steps_sendOrQuiet steps (Fork.quiet_digest _ _) hbody
    obtain ⟨hext₂, hothers⟩ := branches_sendOrQuiet rest hrest
    refine ⟨hext₁.trans hext₂, ?_⟩
    simp only [Fragment.append, Fork.branch, Body.startingWith, List.mem_append, List.mem_cons]
    rintro e ((rfl | he) | he)
    · exact ⟨_, rfl, .inr (Fork.quiet_digest _ _).action⟩
    · exact (hown e he).mono hext₂
    · exact hothers e he

/-- The edges of what is done otherwise send or are quiet. -/
theorem otherwise_sendOrQuiet : ∀ (other : Option (List Step)) {path : BodyPath}
    {events events' : Events} {body : Body}, Quiet path.digest →
    (s.otherwise path other).Yields events body events' →
      events.Extends s.automaton events' ∧ ∀ e ∈ body.edges, e.SendsOrQuiet events' s.automaton
  | none, _, _, _, _, _, h => by
    obtain ⟨rfl, rfl⟩ := yields_otherwise_none.1 h
    exact ⟨.refl _ _, by simp [Body.finish]⟩
  | some steps, _, _, _, _, hquiet, h =>
    steps_sendOrQuiet steps hquiet (yields_otherwise_some.1 h)

end

/-- The edges of a **body** send or are quiet, and registrations stay. -/
theorem compile_sendOrQuiet {path : BodyPath} {probability : Expr} {steps : List Step}
    {events events' : Events} {body : Body}
    (h : (s.compile path probability steps).Yields events body events')
    (hquiet : Quiet path.digest) :
    events.Extends s.automaton events' ∧ ∀ e ∈ body.edges, e.SendsOrQuiet events' s.automaton :=
  steps_sendOrQuiet steps hquiet h

end BodyScope

end ChartNet
