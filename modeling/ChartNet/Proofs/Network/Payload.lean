import ChartNet.Proofs.Body.Payloads
import ChartNet.Proofs.Chart.Sites
import ChartNet.Proofs.Network.Data
import ChartNet.Proofs.Network.Origin
import ChartNet.Proofs.Random.Outcomes

/-!
# Payloads in runs

What a receiver finds of the **payload** of an event. Before the draws are expanded the edge of a
send carries its whole payload. The expansion keeps the assignments up to the first random one on
the edge and moves all others to later edges, so after it the send writes the **settled** part of
the payload.

In a run every receive has a matching send before it, with no delivery of the event in between. So
the payload was written as a whole when the receive happens if none of its values is random
(`compile_payload`). If one is, the receive may come before the payload: the last theorem has a run
in which nothing was written at all.
-/

namespace ChartNet

open Interpretation

/-! ### Settled payloads -/

/-- A destination **delivers** a payload: it assigns what is settled of it, and unless something of
it was moved away, other assignments at higher indexes follow. -/
def Destination.Delivers (d : Destination) (payload : List Assignment) : Prop :=
  ∃ later, d.assignments = settled payload ++ later ∧
    ((∃ a ∈ payload, a.value.isRandom) → later = []) ∧
    ∀ a ∈ payload, ∀ b ∈ later, ¬ b.index.le a.index

theorem Destination.delivers_of_settled {d : Destination} {payload later : List Assignment}
    (h : d.assignments = settled (payload ++ later))
    (hlater : ∀ a ∈ payload, ∀ b ∈ later, ¬ b.index.le a.index) : d.Delivers payload := by
  unfold settled at h
  rw [List.takeWhile_append] at h
  split at h
  · rename_i hlength
    -- all of the payload is settled
    have hall : settled payload = payload :=
      List.IsPrefix.eq_of_length (List.takeWhile_prefix _) hlength
    refine ⟨settled later, by rw [hall]; exact h, ?_, fun a ha b hb => ?_⟩
    · rintro ⟨a, ha, hrandom⟩
      rw [settled_eq_self.1 hall a ha] at hrandom
      cases hrandom
    · exact hlater a ha b ((List.takeWhile_prefix _).subset hb)
  · exact ⟨[], by rw [h, List.append_nil]; rfl, fun _ => rfl, by simp⟩

/-! ### Edges that send -/

/-- The edges by which a compiled chart sends carry the payloads of sends in its bodies. -/
theorem Chart.compile_carries {c : Chart} {setting : Setting} {es es' : Events} {a : Automaton}
    (h : (c.compile setting).Yields es a es') {e : Edge} (he : e ∈ a.edges) {event : String}
    (haction : e.action = some (sendAction event)) :
    ∃ p ∈ c.sites setting.constants, ∃ a₀,
      e.Carries (setting.scope a₀ p.event) (sendsAmong p.steps) := by
  obtain ⟨placed, hsites, hgrows⟩ := compile_placed h
  rcases hgrows.origin e he with hnone | ⟨-, hother⟩ | ⟨⟨p, body⟩, hp, he⟩
  · simp at hnone
  · exact absurd haction (hother event)
  · obtain ⟨a₀, es₁, es₂, hbody⟩ := hgrows.compiled _ hp
    have hquiet : Quiet p.path.digest := quiet_digest p.parts
    have hedges := BodyScope.steps_carry p.steps hquiet hbody
    refine ⟨p, hsites ▸ List.mem_map_of_mem hp, a₀, ?_⟩
    cases p with
    | target => exact hedges e he
    | start first =>
      rcases List.mem_cons.1 he with rfl | he
      · exact Edge.carries_of_not_isDelivery rfl hquiet.action
      · exact hedges e he

/-- Of the edges that an edge becomes, only itself sends, with its destinations expanded. -/
theorem Edge.eq_of_mem_expandDraws {n : Size} {e e' : Edge} {id : String} {es : List Edge}
    {event : String} (hes : e.expandDraws n id = .ok es) (he' : e' ∈ es)
    (haction : e'.action = some (sendAction event)) :
    e.action = some (sendAction event) ∧ ∃ parts : List (Destination × List Edge),
      List.Forall₂ (fun d part => e.expandDestination n id d.2 d.1 = .ok part)
        e.destinations.zipIdx parts ∧ e' = { e with destinations := parts.map (·.1) } := by
  have hsome : e.action ≠ none := by
    intro hnone
    rw [expandDraws, hnone] at hes
    cases hes
    rw [List.mem_singleton.1 he', hnone] at haction
    cases haction
  obtain ⟨parts, hparts, rfl⟩ := (expandDraws_eq_ok hsome).1 hes
  rcases List.mem_cons.1 he' with rfl | he'
  · exact ⟨haction, parts, hparts, rfl⟩
  · -- the edges of draws send nothing
    obtain ⟨part, hpart, he'⟩ := List.mem_flatMap.1 he'
    obtain ⟨⟨d, k⟩, -, hd⟩ := exists_of_mem_forall₂ hparts hpart
    rcases expandDestination_eq_ok.1 hd with ⟨-, rfl⟩ | ⟨-, target, -, rfl⟩
    · simp at he'
    · rcases eq_of_mem_drawAll _ _ _ _ e' he' with ⟨a, -, -, source, after, rfl⟩ | ⟨_, _, _, -, rfl⟩
      · cases haction
      · exact absurd ⟨event, .inl (Option.some.inj haction)⟩ not_isDelivery_continuationAction

/-! ### Matching sends -/

/-- Before a receive comes a send. -/
theorem Alternate.exists_sender {roles : List Role} (h : Alternate (roles ++ [.receiver])) :
    ∃ earlier, roles = earlier ++ [.sender] := by
  rw [Alternate, List.length_append, List.length_singleton, List.range_succ, List.map_append] at h
  obtain ⟨hroles, hlast⟩ := List.append_inj' h rfl
  have hodd : ¬ roles.length % 2 = 0 := by
    intro heven
    simp [Role.turn, heven] at hlast
  obtain ⟨k, hk⟩ :=
    Nat.exists_eq_succ_of_ne_zero (n := roles.length) (by rintro h0; simp [h0] at hodd)
  rw [hk, Nat.succ_eq_add_one, List.range_succ, List.map_append] at hroles
  have hturn : Role.turn k = .sender := if_pos (by omega)
  exact ⟨_, by rw [hroles, List.map_singleton, hturn]⟩

/-- The last delivery before a place in a run. -/
theorem exists_of_deliveries_eq {event : String} {trace : List (List Move)} {roles : List Role}
    {role : Role} (h : deliveries event trace = roles ++ [role]) :
    ∃ before moves between, trace = before ++ moves :: between ∧
      delivery? event moves = some role ∧ deliveries event between = [] := by
  obtain ⟨first, last, rfl, -, hlast⟩ := List.filterMap_eq_append_iff.1 h
  obtain ⟨skipped, moves, between, rfl, -, hmoves, hbetween⟩ := List.filterMap_eq_cons_iff.1 hlast
  exact ⟨first ++ skipped, moves, between, by simp, hmoves, hbetween⟩

namespace Model.Wired

variable {D : Dynamics} {m : Model} {live : List Event} {c : Composition} {σ σ' : Snapshot D}
  {moves : List Move} {event : String} {role : Role}

/-- A step that delivers an event is one of a live event. -/
theorem exists_delivered (h : m.Wired live c) (hstep : m.Step c σ moves σ')
    (hdelivery : delivery? event moves = some role) :
    ∃ e ∈ live, e.name = event ∧ e.Delivered role moves := by
  rcases h.step_cases hstep with ⟨e, he, role', hdelivered⟩ | ⟨hquiet, -⟩
  · rw [hdelivered.delivery?_eq] at hdelivery
    split at hdelivery
    · rename_i hname
      cases hdelivery
      exact ⟨e, he, hname.symm, hdelivered⟩
    · cases hdelivery
  · rw [delivery?_eq_none fun v hv role => hquiet v hv role event] at hdelivery
    cases hdelivery

/-- What is delivered to receivers has some. -/
theorem hasReceivers_of_delivered (h : m.Wired live c) (hstep : m.Step c σ moves σ') {e : Event}
    (he : e ∈ live) (hdelivered : e.Delivered .receiver moves) : e.hasReceivers := by
  obtain ⟨v, hv, hname⟩ := List.mem_map.1 hdelivered.buffer
  have hedge := h.mem_buffer (hstep.canMove v hv) he hname
  obtain ⟨-, x, hx⟩ := Event.member_of_mem_buffer (h.sent e he) hedge (hdelivered.actions v hv)
  have hne : e.receivers ≠ [] := fun hnil => by simp [Event.members, hnil] at hx
  simpa [Event.hasReceivers] using hne

/-- **Every receive has a matching send** before it, with no delivery of the event in between. -/
theorem exists_send (h : m.Wired live c) {trace : List (List Move)} (hrun : m.Run c trace σ)
    (hstep : m.Step c σ moves σ') (hreceive : delivery? event moves = some .receiver) :
    ∃ before sent between, trace = before ++ sent :: between ∧
      delivery? event sent = some .sender ∧ deliveries event between = [] := by
  obtain ⟨e, he, rfl, hdelivered⟩ := h.exists_delivered hstep hreceive
  have hreceivers := h.hasReceivers_of_delivered hstep he hdelivered
  obtain ⟨halternate, -⟩ := h.alternate he hreceivers (hrun.step hstep)
  rw [deliveries_snoc, hreceive] at halternate
  obtain ⟨earlier, hearlier⟩ := halternate.exists_sender
  exact exists_of_deliveries_eq hearlier

/-- A sender that is no buffer moves in every send. -/
theorem exists_sender (h : m.Wired live c) (hstep : m.Step c σ moves σ')
    (hsend : delivery? event moves = some .sender) :
    ∃ v ∈ moves, v.automaton ∉ live.map (·.name) ∧ m.CanMove σ v ∧
      v.edge.action = some (sendAction event) := by
  obtain ⟨e, he, rfl, hdelivered⟩ := h.exists_delivered hstep hsend
  obtain ⟨x, hx, hperm⟩ := hdelivered.sender rfl
  obtain ⟨v, hv, rfl⟩ := List.mem_map.1 ((hperm.mem_iff (a := x)).2 (by simp))
  exact ⟨v, hv, h.members e he .sender _ hx, hstep.canMove v hv, hdelivered.actions v hv⟩

end Model.Wired

namespace Descriptor

/-- Assignments are a **payload** of an event in a descriptor: those of a send in one of its
charts. -/
def IsPayload (d : Descriptor) (charts : Charts) (event : String) (params : List Param)
    (payload : List Assignment) : Prop :=
  ∃ entry ∈ d.charts, ∃ c, chartOf charts entry = .ok c ∧
    ∃ m₀, ∃ p ∈ c.sites (d.setting m₀).constants, (event, params) ∈ sendsAmong p.steps ∧
      ∃ a, ((d.setting m₀).scope a p.event).IsPayload event params payload

variable {d : Descriptor} {charts : Charts} {m : Model} {json : Json}

/-- **The edges that send an event deliver payloads of it.** -/
theorem Stems.delivers {e : Edge} (h : d.Stems charts e) {event : String}
    (haction : e.action = some (sendAction event)) :
    ∃ params payload dest, d.IsPayload charts event params payload ∧ e.destinations = [dest] ∧
      dest.Delivers payload := by
  obtain ⟨entry, hentry, c, hc, m₀, es, a, es', hcompile, e₀, he₀, id, expanded, hexpand, he⟩ := h
  obtain ⟨hsends, parts, hparts, rfl⟩ := Edge.eq_of_mem_expandDraws hexpand he haction
  obtain ⟨p, hp, a₀, hcarries⟩ := Chart.compile_carries hcompile he₀ hsends
  obtain ⟨params, payload, later, dest, hmem, hpayload, hdest, hassignments, hlater⟩ :=
    hcarries event hsends
  -- the edge of a send has one destination, which was expanded
  rw [hdest, List.zipIdx_singleton, List.forall₂_cons_left_iff] at hparts
  obtain ⟨part, rest, hpart, hrest, rfl⟩ := hparts
  obtain rfl := List.forall₂_nil_left_iff.1 hrest
  refine ⟨params, payload, part.1, ⟨entry, hentry, c, hc, m₀, p, hp, hmem, a₀, hpayload⟩, rfl, ?_⟩
  have hsettled : part.1.assignments = settled (payload ++ later) := by
    rw [Edge.assignments_expandDestination hpart, hassignments]
  exact Destination.delivers_of_settled hsettled hlater

theorem IsPayload.spec {event : String} {params : List Param} {payload : List Assignment}
    (h : d.IsPayload charts event params payload) :
    (∀ a ∈ payload, a.index = .zero) ∧
      (∀ p ∈ params, ∃ a ∈ payload, a.ref = .ident (event ++ "." ++ p.name)) ∧
      ∃ values, payload = values ++
        [{ ref := .ident (event ++ ".valid"), value := .bool true }] := by
  obtain ⟨_, -, _, -, _, _, -, -, _, es, es', hsend⟩ := h
  exact BodyScope.spec_of_send hsend

/-- In every send an automaton of a chart delivers a payload of the event. -/
theorem exists_delivers {D : Dynamics} {live : List Event} {c : Composition} {σ σ' : Snapshot D}
    {event : String} {sent : List Move} (hwired : m.Wired live c)
    (hstems : ∀ a ∈ m.automata, a.name ∉ live.map (·.name) → ∀ e ∈ a.edges, d.Stems charts e)
    (hstep : m.Step c σ sent σ') (hsent : delivery? event sent = some .sender) :
    ∃ v ∈ sent, v.automaton ∉ live.map (·.name) ∧ v.edge.action = some (sendAction event) ∧
      ∃ params payload, d.IsPayload charts event params payload ∧
        v.destination.Delivers payload := by
  obtain ⟨v, hv, hname, hmove, haction⟩ := hwired.exists_sender hstep hsent
  obtain ⟨a, ha, hautomaton, hedge⟩ := hmove.edge
  obtain ⟨params, payload, dest, hpayload, hdest, hdelivers⟩ :=
    (hstems a ha (hautomaton ▸ hname) _ hedge).delivers haction
  have hmem := hmove.destination
  rw [hdest, List.mem_singleton] at hmem
  exact ⟨v, hv, hname, haction, params, payload, hpayload, hmem ▸ hdelivers⟩

/-- What the model of a descriptor can play is a run of it. -/
theorem exists_run_of_plays (d : Descriptor) (charts : Charts) (I : Interpretation) (μ : I.Memory)
    (script : List (List (String × Nat))) (check : List (List Move) → I.Memory → Bool)
    (h : (d.compile charts).toOption.any fun r => r.1.plays I μ script check) :
    ∃ m json c trace, ∃ σ : Snapshot (m.dynamics I), d.compile charts = .ok (m, json) ∧
      m.composition = some c ∧ m.Run c trace σ ∧ check trace σ.data := by
  obtain ⟨⟨m, json⟩, hcompile, hplays⟩ := Result.exists_of_any h
  obtain ⟨c, trace, σ, hrun⟩ := Model.run_of_plays hplays
  exact ⟨m, json, c, trace, σ, hcompile, hrun⟩

end Descriptor

end ChartNet
