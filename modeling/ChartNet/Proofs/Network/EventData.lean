import ChartNet.Proofs.Network.Payload

/-!
# Event data in runs

The data of an event are global variables, one for each field, which every send of the event writes
and every receiver reads. Nothing protects them: as the buffer of the event is free again after a
receive, the next send may overwrite them while a receiver is still busy, and an assignment of a
chart may have them as its target like any other variable.

So what a receiver reads stays that of the **matching send** as long as the event is not sent again,
for variables that only sends of the event write (`compile_event_data`). The last theorem has two
runs in which a receiver reads something else: in one the event was sent again, in the other another
chart assigned to the field.
-/

namespace ChartNet

open Interpretation
open Number (numberOf)

namespace Model

/-- A variable is **shared by** an event: no automaton has one of the same name, and assignments to
it stand only where the event is sent, at the index of payloads. -/
structure SharedBy (m : Model) (event x : String) : Prop where
  undeclared : ∀ a ∈ m.automata, ∀ v ∈ a.vars, v.name ≠ x
  written : ∀ a ∈ m.automata, ∀ e ∈ a.edges, ∀ d ∈ e.destinations, ∀ b ∈ d.assignments,
    b.ref.chain?.map (·.root) = some x → e.action = some (sendAction event) ∧ b.index = .zero

instance (m : Model) (event x : String) : Decidable (m.SharedBy event x) :=
  decidable_of_iff ((∀ a ∈ m.automata, ∀ v ∈ a.vars, v.name ≠ x) ∧
      ∀ a ∈ m.automata, ∀ e ∈ a.edges, ∀ d ∈ e.destinations, ∀ b ∈ d.assignments,
        b.ref.chain?.map (·.root) = some x → e.action = some (sendAction event) ∧ b.index = .zero)
    ⟨fun ⟨h₁, h₂⟩ => ⟨h₁, h₂⟩, fun h => ⟨h.undeclared, h.written⟩⟩

variable {I : Interpretation} {m : Model} {live : List Event} {c : Composition} {event x : String}
  {σ σ' : Snapshot (m.dynamics I)} {moves : List Move} {trace : List (List Move)}

/-- All automata see the same of a shared variable. -/
theorem SharedBy.view_eq (h : m.SharedBy event x) (automaton : String) (μ : I.Memory) :
    m.view I automaton μ x = μ ⟨none, x⟩ := by
  have hdeclares : m.declares automaton x = false := by
    simpa [declares] using fun a ha _ v hv => h.undeclared a ha v hv
  simp [view, cell, hdeclares]

/-- A move that writes a shared variable is along an edge that sends the event. -/
theorem SharedBy.action_of_writes (h : m.SharedBy event x) {v : Move} (hmove : m.CanMove σ v)
    (hwrites : v.destination.Writes x) : v.edge.action = some (sendAction event) := by
  obtain ⟨a, ha, -, hedge⟩ := hmove.edge
  obtain ⟨b, hb, hroot⟩ := hwrites
  exact (h.written a ha _ hedge _ hmove.destination b hb hroot).1

/-- The memory after a step is that after its moves. -/
theorem Step.data_eq (h : m.Step c σ moves σ') : σ'.data = m.after I moves σ.data := by
  cases h with
  | sync _ _ _ hdata => exact hdata
  | silent _ _ hdata => exact hdata

/-! ### Between sends -/

/-- A step that has a move along a sending edge delivers the event. -/
theorem Wired.delivery?_of_action (h : m.Wired live c) (hstep : m.Step c σ moves σ') {v : Move}
    (hv : v ∈ moves) (haction : v.edge.action = some (sendAction event)) :
    delivery? event moves = some .sender := by
  rcases h.step_cases hstep with ⟨e, he, role, hdelivered⟩ | ⟨hquiet, -⟩
  · have heq : role.action e.name = Role.action event .sender :=
      Option.some.inj ((hdelivered.actions v hv).symm.trans haction)
    obtain ⟨rfl, rfl⟩ := Role.action_inj heq
    rw [hdelivered.delivery?_eq, if_pos rfl]
  · exact absurd haction (hquiet v hv .sender event)

/-- **A step that does not send an event leaves its shared variables alone** at all stages. -/
theorem Wired.eq_of_mem_stages (h : m.Wired live c) (hshared : m.SharedBy event x)
    (hstep : m.Step c σ moves σ') (hquiet : delivery? event moves ≠ some .sender) {s : I.Memory}
    (hs : s ∈ m.stages I moves σ.data) : s ⟨none, x⟩ = σ.data ⟨none, x⟩ := by
  refine Model.eq_of_mem_stages (p := ⟨none, x⟩) (fun v hv hwrites => hquiet ?_) hs
  exact h.delivery?_of_action hstep hv (hshared.action_of_writes (hstep.canMove v hv) hwrites)

/-- Nor do several steps without a send change them. -/
theorem Wired.data_eq_of_steps (h : m.Wired live c) (hshared : m.SharedBy event x)
    (hsteps : m.Steps c σ trace σ') (hquiet : .sender ∉ deliveries event trace) :
    σ'.data ⟨none, x⟩ = σ.data ⟨none, x⟩ := by
  induction hsteps with
  | refl => rfl
  | @head rest moves σ σ₁ σ' hstep _ ih =>
    have hsplit : deliveries event (moves :: rest) =
        (delivery? event moves).toList ++ deliveries event rest := by
      cases hmoves : delivery? event moves <;> simp [deliveries, hmoves]
    rw [hsplit, List.mem_append, not_or] at hquiet
    rw [ih hquiet.2, hstep.data_eq]
    refine h.eq_of_mem_stages hshared hstep (fun hsend => hquiet.1 ?_) (after_mem_stages _ _)
    simp [hsend]

/-! ### What a send leaves -/

/-- In a send only the sender has assignments; the buffer has none. -/
theorem Wired.writes_eq_of_send (h : m.Wired live c) (hstep : m.Step c σ moves σ')
    (hsend : delivery? event moves = some .sender) {v : Move} (hv : v ∈ moves)
    (hname : v.automaton ∉ live.map (·.name)) :
    writes moves = v.destination.assignments.map (v.automaton, ·) := by
  obtain ⟨e, he, rfl, hdelivered⟩ := h.exists_delivered hstep hsend
  obtain ⟨y, hy, hperm⟩ := hdelivered.sender rfl
  -- who moves besides the sender is the buffer, which has no assignments
  have hbuffer : ∀ w ∈ moves, w.automaton = e.name → w.destination.assignments = [] := by
    intro w hw hwname
    have hmove := hstep.canMove w hw
    have hedge := h.mem_buffer hmove he hwname
    have hmem := hmove.destination
    rw [Event.edges_buffer] at hedge
    split at hedge
    · simp only [List.mem_cons, List.not_mem_nil, or_false] at hedge
      rcases hedge with heq | heq
      · rw [heq] at hmem
        rw [List.mem_singleton.1 hmem]
      · rw [heq] at hmem
        rw [List.mem_singleton.1 hmem]
    · rw [List.mem_singleton.1 hedge] at hmem
      rw [List.mem_singleton.1 hmem]
  obtain ⟨w₁, w₂, rfl⟩ := List.length_eq_two.1 (by simpa [movers] using hperm.length_eq)
  have hne : e.name ≠ v.automaton := fun heq => hname (heq ▸ List.mem_map_of_mem he)
  have hmem := hdelivered.buffer
  simp only [movers, List.map_cons, List.map_nil, List.mem_cons, List.not_mem_nil,
    or_false] at hmem hv
  rcases hv with rfl | rfl
  · have hother := hbuffer w₂ (by simp) (hmem.resolve_left hne).symm
    simp [writes, hother]
  · have hother := hbuffer w₁ (by simp) (hmem.resolve_right hne).symm
    simp [writes, hother]

/-- **After a send a shared variable has the value of the payload**, as far as that is settled. -/
theorem Wired.data_of_send (h : m.Wired live c) (hshared : m.SharedBy event x)
    (hstep : m.Step c σ moves σ') (hsend : delivery? event moves = some .sender) {v : Move}
    (hv : v ∈ moves) (hname : v.automaton ∉ live.map (·.name)) {payload : List Assignment}
    (hindex : ∀ a ∈ payload, a.index = .zero) (hne : payload ≠ [])
    (hdelivers : v.destination.Delivers payload) :
    σ'.data ⟨none, x⟩ = I.together (settled payload) (m.view I v.automaton σ.data) x := by
  obtain ⟨later, hassignments, -, hlater⟩ := hdelivers
  have hsettled : ∀ a ∈ settled payload, a ∈ payload := (List.takeWhile_prefix _).subset
  have hquiet : ∀ b ∈ later, b.ref.chain?.map (·.root) ≠ some x := by
    intro b hb hroot
    obtain ⟨a, ha⟩ := List.exists_mem_of_ne_nil payload hne
    obtain ⟨automaton, hmem, -, hedge⟩ := (hstep.canMove v hv).edge
    have hzero := (hshared.written automaton hmem _ hedge _ (hstep.canMove v hv).destination b
      (hassignments ▸ List.mem_append_right _ hb) hroot).2
    exact hlater a ha b hb (by rw [hzero, hindex a ha]; exact Rank.le_refl _)
  have hview := @view_after m I _ _ _ (h.writes_eq_of_send hstep hsend hv hname) σ.data
  rw [← hshared.view_eq v.automaton σ'.data, hstep.data_eq, hview, hassignments,
    I.perform_append fun a ha b hb => hlater a (hsettled a ha) b hb, I.perform_of_ne hquiet,
    I.perform_of_index fun a ha => hindex a (hsettled a ha)]

end Model

namespace Descriptor

variable {d : Descriptor} {charts : Charts} {m : Model} {json : Json}

/-- **Event data stay those of the matching send until the event is sent again.** For a variable
that only sends of the event write, all reads from a receive to the next send, at whatever stage of
a step and by whatever automaton, yield the value that the payload of the matching send gave it. -/
theorem compile_event_data (I : Interpretation) (hcomposition : d.composition = none)
    (h : d.compile charts = .ok (m, json)) :
    ∃ c, m.composition = some c ∧ ∀ event x, m.SharedBy event x →
      ∀ (trace after : List (List Move)) (received : List Move) (σ σ₁ σ' : Snapshot (m.dynamics I)),
        m.Run c trace σ → m.Step c σ received σ₁ → delivery? event received = some .receiver →
        m.Steps c σ₁ after σ' → .sender ∉ deliveries event after →
        ∃ before sent between, ∃ τ τ' : Snapshot (m.dynamics I), trace = before ++ sent :: between ∧
          m.Run c before τ ∧ m.Step c τ sent τ' ∧ delivery? event sent = some .sender ∧
          deliveries event between = [] ∧
          ∃ v ∈ sent, v.automaton ≠ event ∧ v.edge.action = some (sendAction event) ∧
            ∃ params payload, d.IsPayload charts event params payload ∧
            v.destination.Delivers payload ∧
            let value := I.together (settled payload) (m.view I v.automaton τ.data) x
            (∀ s ∈ m.stages I received σ.data, ∀ automaton, m.view I automaton s x = value) ∧
            (∀ automaton, m.view I automaton σ'.data x = value) ∧
            ∀ moves σ₂, m.Step c σ' moves σ₂ → delivery? event moves ≠ some .sender →
              ∀ s ∈ m.stages I moves σ'.data, ∀ automaton, m.view I automaton s x = value := by
  obtain ⟨live, c, hc, hwired, hstems⟩ := stems_compile hcomposition h
  refine ⟨c, hc,
    fun event x hshared trace after received σ σ₁ σ' hrun hstep hreceive hsteps hquiet =>
    ?_⟩
  obtain ⟨before, sent, between, rfl, hsent, hbetween⟩ := hwired.exists_send hrun hstep hreceive
  obtain ⟨τ, hearlier, hsince⟩ := hrun.split
  cases hsince with
  | @head _ _ _ τ' _ hsending hsince =>
    obtain ⟨v, hv, hname, haction, params, payload, hpayload, hdelivers⟩ :=
      exists_delivers hwired hstems hsending hsent
    obtain ⟨e, he, rfl, -⟩ := hwired.exists_delivered hstep hreceive
    obtain ⟨hindex, -, values, hvalues⟩ := hpayload.spec
    -- what the send leaves stays until the receive, in it, and after it until the next send
    have hleft :=
      hwired.data_of_send hshared hsending hsent hv hname hindex (by simp [hvalues]) hdelivers
    have hbefore := hwired.data_eq_of_steps hshared hsince (by simp [hbetween])
    have hstages := fun s => @Model.Wired.eq_of_mem_stages I m live c e.name x σ σ₁ received hwired
      hshared hstep (by simp [hreceive]) s
    have hreceived : σ₁.data ⟨none, x⟩ = σ.data ⟨none, x⟩ := by
      rw [hstep.data_eq]
      exact hstages _ (Model.after_mem_stages _ _)
    have hafter := hwired.data_eq_of_steps hshared hsteps hquiet
    refine ⟨before, sent, between, τ, τ', rfl, hearlier, hsending, hsent, hbetween, v, hv,
      fun heq => hname (heq ▸ List.mem_map_of_mem he), haction, params, payload,
        hpayload, hdelivers,
      ?_, ?_, ?_⟩
    · intro s hs automaton
      rw [hshared.view_eq, hstages s hs, hbefore, hleft]
    · intro automaton
      rw [hshared.view_eq, hafter, hreceived, hbefore, hleft]
    · intro moves σ₂ hnext hnosend s hs automaton
      rw [hshared.view_eq, hwired.eq_of_mem_stages hshared hnext hnosend hs, hafter, hreceived,
        hbefore, hleft]

/-- A chart that sends a number when it starts, and one that stores it only after a send of its own:
it stores the number. -/
theorem compile_event_data_of_one_send :
    let sender : Chart :=
      { name := "sender", initial := "start"
        states := [{ id := "start"
                     onEntry := some [.send "go" (some [{ name := "f", expr := "1" }])] }] }
    let receiver : Chart :=
      { name := "receiver", initial := "idle"
        datamodel := some [{ id := "y", type := "int32", expr := some "0" }]
        states := [{ id := "idle"
                     transitions := some
                       [{ event := some "go"
                          goal := .single "idle"
                            (some [.send "done" none, .assign "y" "_event.data.f"]) }] }] }
    let d : Descriptor :=
      { name := "network", capacity := .whole 1, randomOptions := .whole 1
        charts := [.inline sender, .inline receiver] }
    ∃ m json c, d.compile = .ok (m, json) ∧ m.composition = some c ∧ m.SharedBy "go" "go.f" ∧
      (∃ trace, ∃ σ : Snapshot (m.dynamics rational), m.Run c trace σ ∧
        trace.map (delivery? "go") = [none, some .sender, some .receiver, none]) ∧
      ∀ (trace after : List (List Move)) (received : List Move)
        (σ σ₁ σ' : Snapshot (m.dynamics rational)), m.Run c trace σ → m.Step c σ received σ₁ →
        delivery? "go" received = some .receiver → m.Steps c σ₁ after σ' →
        .sender ∉ deliveries "go" after → m.view rational "receiver" σ'.data "go.f" = (1 : ℚ) := by
  intro sender receiver d
  obtain ⟨hplays, hmodel⟩ :
      d.compile.toOption.any (fun r => r.1.plays rational (fun _ => (0 : ℚ))
        [[("sender", 0)], [("go", 0), ("sender", 1)], [("go", 1), ("receiver", 0)],
          [("done", 0), ("receiver", 1)]]
        fun trace _ => trace.map (delivery? "go") = [none, some .sender, some .receiver, none]) ∧
      d.compile.toOption.any fun r => decide (r.1.SharedBy "go" "go.f" ∧
        ∀ a ∈ r.1.automata, ∀ e ∈ a.edges, e.action = some (sendAction "go") → a.name ≠ "go" →
          ∀ dest ∈ e.destinations, dest.assignments =
            [{ ref := .ident "go.f", value := .int 1 },
              { ref := .ident "go.valid", value := .bool true }]) := by
    decide +kernel
  obtain ⟨m, json, c, trace, σ, hcompile, hc, hrun, hcheck⟩ :=
    d.exists_run_of_plays [] rational _ _ _ hplays
  have hmodel := Result.holds_of_any hcompile hmodel
  obtain ⟨hshared, hedges⟩ := of_decide_eq_true hmodel
  obtain ⟨c', hc', hdata⟩ := compile_event_data rational rfl hcompile
  obtain rfl : c' = c := Option.some.inj (hc'.symm.trans hc)
  refine ⟨m, json, c', hcompile, hc, hshared, ⟨trace, σ, hrun, of_decide_eq_true hcheck⟩, ?_⟩
  intro trace after received σ σ₁ σ' hrun hstep hreceive hsteps hquiet
  obtain ⟨before, sent, between, τ, τ', -, -, hsending, -, -, v, hv, hname, haction, params,
    payload, hpayload, ⟨later, hassignments, -, hlater⟩, -, hvalue, -⟩ :=
    hdata "go" "go.f" hshared trace after received σ σ₁ σ' hrun hstep hreceive hsteps hquiet
  obtain ⟨a, ha, hautomaton, hedge⟩ := (hsending.canMove v hv).edge
  have hdest :=
    hedges a ha _ hedge haction (hautomaton ▸ hname) _ (hsending.canMove v hv).destination
  obtain ⟨hindex, -, values, hvalues⟩ := hpayload.spec
  -- nothing follows the payload, as everything on the edge has its index
  have hnone : later = [] := by
    refine List.eq_nil_iff_forall_not_mem.2 fun b hb => ?_
    have hmem : b ∈ v.destination.assignments := hassignments ▸ List.mem_append_right _ hb
    have hzero : b.index = .zero := by
      rw [hdest] at hmem
      simp only [List.mem_cons, List.not_mem_nil, or_false] at hmem
      rcases hmem with rfl | rfl <;> rfl
    have hvalid : { ref := .ident "go.valid", value := .bool true } ∈ payload := by
      rw [hvalues]
      exact List.mem_append_right _ (List.mem_singleton_self _)
    exact hlater _ hvalid b hb (by rw [hzero]; exact Rank.le_refl _)
  rw [hnone, List.append_nil, hdest] at hassignments
  have hone : numberOf 1 = 1 := by decide +kernel
  rw [hvalue "receiver", ← hassignments]
  simp [together, write, Expr.chain?, rational, rationalValue, Expr.int, hone]

/-- **A receiver may read what another send or another chart wrote.** The receiver of a number
stores the number of a second send in one run, and what another chart assigned to the field in
another. -/
theorem compile_reads_other_data :
    let sender : Chart :=
      { name := "sender", initial := "start"
        states := [{ id := "start"
                     onEntry := some [.send "go" (some [{ name := "f", expr := "1" }]),
                       .send "go" (some [{ name := "f", expr := "2" }])] }] }
    let receiver : Chart :=
      { name := "receiver", initial := "idle"
        datamodel := some [{ id := "y", type := "int32", expr := some "0" }]
        states := [{ id := "idle"
                     transitions := some
                       [{ event := some "go"
                          goal := .single "idle"
                            (some [.send "done" none, .assign "y" "_event.data.f"]) }] }] }
    let writer : Chart :=
      { name := "writer", initial := "start"
        states := [{ id := "start", onEntry := some [.assign "go.f" "5"] }] }
    let d : Descriptor :=
      { name := "network", capacity := .whole 1, randomOptions := .whole 1
        charts := [.inline sender, .inline receiver, .inline writer] }
    let first : Assignment := { ref := .ident "go.f", value := .int 1 }
    let stored : Assignment := { ref := .ident "y", value := .ident "go.f", index := .ofInt 1 }
    ∃ m json c, d.compile = .ok (m, json) ∧ m.composition = some c ∧
      ∀ other ∈ [(some Role.sender, (2 : ℚ)), (none, 5)],
        ∃ start sent received between read, ∃ σ : Snapshot (m.dynamics rational),
          m.Run c [start, sent, received, between, read] σ ∧
          delivery? "go" sent = some .sender ∧ delivery? "go" received = some .receiver ∧
          delivery? "go" between = other.1 ∧
          (∃ v ∈ sent, first ∈ v.destination.assignments) ∧
          (∃ v ∈ read, v.automaton = "receiver" ∧ stored ∈ v.destination.assignments) ∧
          σ.data ⟨some "receiver", "y"⟩ = other.2 := by
  intro sender receiver writer d first stored
  -- both runs differ in their fourth step only
  have hplays : ∀ other ∈ [(some Role.sender, (2 : ℚ), [("go", 0), ("sender", 2)]),
      (none, 5, [("writer", 0)])], d.compile.toOption.any (fun r => r.1.plays rational
        (fun _ => (0 : ℚ)) [[("sender", 0)], [("go", 0), ("sender", 1)],
          [("go", 1), ("receiver", 0)], other.2.2, [("done", 0), ("receiver", 1)]] fun steps μ =>
          decide (steps.map (delivery? "go") =
              [none, some .sender, some .receiver, other.1, none] ∧
            (∀ sent ∈ steps[1]?, ∃ v ∈ sent, first ∈ v.destination.assignments) ∧
            (∀ read ∈ steps[4]?, ∃ v ∈ read, v.automaton = "receiver" ∧
              stored ∈ v.destination.assignments) ∧
            other.2.1 = μ ⟨some "receiver", "y"⟩)) = true := by
    decide +kernel
  obtain ⟨m, json, c, -, -, hcompile, hc, -⟩ :=
    d.exists_run_of_plays [] rational _ _ _ (hplays _ List.mem_cons_self)
  refine ⟨m, json, c, hcompile, hc, fun other hother => ?_⟩
  obtain ⟨script, hscript⟩ : ∃ script, (other.1, other.2, script) ∈
      [(some Role.sender, (2 : ℚ), [("go", 0), ("sender", 2)]), (none, 5, [("writer", 0)])] := by
    revert other
    simp
  obtain ⟨m', json', c', trace, σ, hcompile', hc', hrun, hcheck⟩ :=
    d.exists_run_of_plays [] rational _ _ _ (hplays _ hscript)
  cases hcompile.symm.trans hcompile'
  obtain rfl : c' = c := Option.some.inj (hc'.symm.trans hc)
  obtain ⟨hdeliveries, hfirst, hstored, hvalue⟩ := of_decide_eq_true hcheck
  simp only [List.map_eq_cons_iff, List.map_eq_nil_iff] at hdeliveries
  obtain ⟨start, _, rfl, -, sent, _, rfl, hsent, received, _, rfl, hreceived, between, _, rfl,
    hbetween, read, _, rfl, -, rfl⟩ := hdeliveries
  exact ⟨start, sent, received, between, read, σ, hrun, hsent, hreceived, hbetween,
    hfirst sent rfl, hstored read rfl, hvalue.symm⟩

end Descriptor

end ChartNet
