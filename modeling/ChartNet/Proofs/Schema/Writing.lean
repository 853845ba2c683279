import ChartNet.Chart.Compile
import ChartNet.Proofs.Schema.Reading
import ChartNet.Proofs.Schema.Validity

/-!
# Writing what was read

A chart that was read is written as the tidy form of the value that it was read from: members that
the schema does not know are lost, nothing else is, and the members stand in the order of the
schema.
-/

namespace ChartNet

open Schema

variable {α β : Type}

/-! ### Schemas whose values can be written -/

/-- Whatever a schema reads from a value that stands for a part is **written** as the tidy form of
the value. -/
def WritesPart (p : ChartPart) (write : α → Json) (s : Schema α) : Prop :=
  ∀ path j a, s path (some j) = .valid a → j.tidy p = write a

/-- The same for the content of a member, which may be absent. -/
def WritesContent (part : Option ChartPart) (write : α → Option Json) (s : Schema α) : Prop :=
  ∀ path v a, s path v = .valid a → v.map (Json.tidyContent part) = write a

section Combinators

variable {p : ChartPart} {part : Option ChartPart}

theorem WritesContent.optional {write : α → Json} {s : Schema α}
    (h : WritesContent part (fun a => some (write a)) s) :
    WritesContent part (fun o => o.map write) (optional s) := by
  intro path v o hv
  cases v with
  | none =>
    cases hv
    rfl
  | some j =>
    obtain ⟨a, ha, rfl⟩ := Verdict.map_eq_valid.1 hv
    exact h path (some j) a ha

/-- Lists can be written if their items can. -/
theorem WritesPart.list {write : α → Json} {s : Schema α} (h : WritesPart p write s)
    (least : Nat) :
    WritesContent (some p) (fun as => some (.arr (as.map write))) (list s least) := by
  intro path v as hv
  obtain ⟨js, rfl, hitems⟩ := forall₂_of_list_eq_valid hv
  have htidy : List.Forall₂ (· = ·) (js.map (Json.tidy p)) (as.map write) :=
    List.forall₂_map_left_iff.2 <| List.forall₂_map_right_iff.2 <|
      hitems.imp fun j a ⟨path, hj⟩ => h path j a hj
  rw [List.forall₂_eq_eq_eq] at htidy
  rw [Option.map_some, Json.tidyContent_arr, htidy]

/-- Objects can be written if what their members are read as can. -/
theorem WritesPart.object {write : α → Json} {f : Fields α}
    (h : ∀ path members a, f.read path members = .valid a →
      (Json.obj members).tidy p = write a) : WritesPart p write (object f) := by
  intro path j a hj
  cases j with
  | obj members => exact h path members a hj
  | _ => cases hj

end Combinators

theorem writesContent_nonEmpty (message : String) :
    WritesContent none (fun s => some (.str s)) (nonEmpty message) := by
  intro path v s hv
  rw [Json.tidyContent_none, Option.map_id, id]
  exact (nonEmpty_eq_valid.1 hv).1

theorem writesContent_amount : WritesContent none (fun a => some a.toJson) amountSchema := by
  intro path v a hv
  obtain ⟨s, hs, hvalid⟩ := exists_of_choice_eq_valid hv
  simp only [List.mem_cons, List.not_mem_nil, or_false] at hs
  rcases hs with rfl | rfl
  · obtain ⟨x, hx, rfl⟩ := Verdict.map_eq_valid.1 hvalid
    rw [Json.tidyContent_none, Option.map_id, id]
    exact number_eq_valid.1 hx
  · obtain ⟨s, hs, rfl⟩ := Verdict.map_eq_valid.1 hvalid
    exact writesContent_nonEmpty _ path v s hs

theorem writesContent_chartKind :
    WritesContent none (fun k => some (.str k.name))
      (oneOf [("default", ChartKind.default), ("bt-root", .btRoot)]) := by
  intro path v k hv
  rw [Json.tidyContent_none, Option.map_id, id]
  obtain ⟨word, rfl, hmem⟩ := mem_of_oneOf_eq_valid hv
  simp only [List.mem_cons, Prod.mk.injEq, List.not_mem_nil, or_false] at hmem
  rcases hmem with ⟨rfl, rfl⟩ | ⟨rfl, rfl⟩ <;> rfl

/-! ### The schema of charts -/

theorem writesPart_param : WritesPart .param Param.toJson paramSchema := by
  refine WritesPart.object fun path members p h => ?_
  simp only [read_seq_eq_valid, read_map_eq_valid] at h
  obtain ⟨_, expr, ⟨name, hname, rfl⟩, hexpr, rfl⟩ := h
  simp only [Json.tidy_obj, ChartPart.known, List.map_cons, List.map_nil,
    writesContent_nonEmpty _ _ _ _ hname, writesContent_nonEmpty _ _ _ _ hexpr]
  rfl

theorem Step.listToJson_eq_map (steps : List Step) : listToJson steps = steps.map toJson := by
  induction steps with
  | nil => rw [listToJson, List.map_nil]
  | cons s ss ih => rw [listToJson, ih, List.map_cons]

/-- The JSON form of a branch of a choice. -/
def Step.branchToJson (branch : String × List Step) : Json :=
  .obj [("cond", .str branch.1), ("body", .arr (branch.2.map toJson))]

theorem Step.branchesToJson_eq_map (branches : List (String × List Step)) :
    branchesToJson branches = branches.map branchToJson := by
  induction branches with
  | nil => rw [branchesToJson, List.map_nil]
  | cons b bs ih => rw [branchesToJson, ih, listToJson_eq_map, List.map_cons, branchToJson]

section Inner

variable {inner : Schema Step} (hinner : WritesPart .step Step.toJson inner)

include hinner

theorem writesPart_branch :
    WritesPart .branch Step.branchToJson
      (object (Prod.mk <$> field "cond" sourceSchema <*> field "body" (list inner))) := by
  refine WritesPart.object fun path members p h => ?_
  simp only [read_seq_eq_valid, read_map_eq_valid] at h
  obtain ⟨_, body, ⟨cond, hcond, rfl⟩, hbody, rfl⟩ := h
  simp only [Json.tidy_obj, ChartPart.known, List.map_cons, List.map_nil,
    writesContent_nonEmpty _ _ _ _ hcond, hinner.list 0 _ _ _ hbody]
  rfl

theorem WritesPart.stepForm : WritesPart .step Step.toJson (stepForm inner) := by
  intro path j s h
  cases j with
  | obj members =>
    obtain ⟨_, word, c, hv, hkind, hfind, hform⟩ := tagged_eq_valid.1 h
    cases hv
    have hc := List.mem_of_find?_eq_some hfind
    obtain rfl : c.1 = word := by simpa using List.find?_some hfind
    simp only [List.mem_cons, List.not_mem_nil, or_false] at hc
    rcases hc with rfl | rfl | rfl
    all_goals
      simp only [Schema.object, read_seq_eq_valid, read_map_eq_valid] at hform
      simp only [Json.tidy_obj, ChartPart.known_step hkind, ChartPart.knownInStep, reduceIte,
        String.reduceEq, List.map_cons, List.map_nil, hkind]
    · obtain ⟨_, expr, ⟨location, hlocation, rfl⟩, hexpr, rfl⟩ := hform
      rw [writesContent_nonEmpty _ _ _ _ hlocation, writesContent_nonEmpty _ _ _ _ hexpr]
      rfl
    · obtain ⟨_, params, ⟨event, hevent, rfl⟩, hparams, rfl⟩ := hform
      rw [writesContent_nonEmpty _ _ _ _ hevent,
        (writesPart_param.list 0).optional _ _ _ hparams, Step.toJson]
      rfl
    · obtain ⟨_, otherwise, ⟨branches, hbranches, rfl⟩, hotherwise, rfl⟩ := hform
      rw [(writesPart_branch hinner).list 1 _ _ _ hbranches,
        (hinner.list 0).optional _ _ _ hotherwise]
      cases otherwise <;>
        simp only [Step.toJson, Step.branchesToJson_eq_map, Step.listToJson_eq_map] <;> rfl
  | _ => cases h

end Inner

/-- Steps can be written, however deep they may be nested. -/
theorem writesPart_step (n : Nat) : WritesPart .step Step.toJson (stepSchema n) := by
  induction n with
  | zero => exact WritesPart.stepForm fun _ _ _ h => by cases h
  | succ n ih => exact ih.stepForm

theorem writesContent_body (n : Nat) : WritesContent (some .step) bodyJson (bodySchema n) := by
  intro path v body h
  rw [((writesPart_step n).list 0).optional path v body h, bodyJson]
  simp only [Step.listToJson_eq_map]

theorem writesPart_target (n : Nat) : WritesPart .target Target.toJson (targetSchema n) := by
  refine WritesPart.object fun path members t h => ?_
  simp only [read_seq_eq_valid, read_map_eq_valid] at h
  obtain ⟨_, body, ⟨_, prob, ⟨target, htarget, rfl⟩, hprob, rfl⟩, hbody, rfl⟩ := h
  simp only [Json.tidy_obj, ChartPart.known, List.map_cons, List.map_nil,
    writesContent_nonEmpty _ _ _ _ htarget, writesContent_amount.optional _ _ _ hprob,
    writesContent_body n _ _ _ hbody]
  rfl

/-- A transition is written with the one target or the targets that it was read with. -/
theorem writesPart_transition (n : Nat) :
    WritesPart .transition Transition.toJson (transitionSchema n) := by
  intro path j t ht
  obtain ⟨r, hr, rfl⟩ := Verdict.map_eq_valid.1 ht
  obtain ⟨hgoal, hbodies⟩ := refine_eq_valid.1 hr
  obtain ⟨hobject, htarget⟩ := refine_eq_valid.1 hgoal
  cases j with
  | obj members =>
    simp only [Schema.object, read_seq_eq_valid, read_map_eq_valid] at hobject
    obtain ⟨_, targets, ⟨_, body, ⟨_, target, ⟨_, cond, ⟨event, hevent, rfl⟩, hcond, rfl⟩,
      hsingle, rfl⟩, hbody, rfl⟩, hseveral, rfl⟩ := hobject
    simp only [Json.tidy_obj, ChartPart.known, List.map_cons, List.map_nil,
      (writesContent_nonEmpty _).optional _ _ _ hevent,
      (writesContent_nonEmpty _).optional _ _ _ hcond,
      (writesContent_nonEmpty _).optional _ _ _ hsingle, writesContent_body n _ _ _ hbody,
      ((writesPart_target n).list 1).optional _ _ _ hseveral]
    cases targets with
    | none =>
      cases target with
      | none => cases htarget
      | some target => rfl
    | some targets =>
      cases target with
      | none =>
        cases body with
        | none => rfl
        | some body => cases hbodies
      | some target => cases htarget
  | _ => cases hobject

theorem writesPart_data : WritesPart .data Data.toJson dataSchema := by
  refine WritesPart.object fun path members d h => ?_
  simp only [read_seq_eq_valid, read_map_eq_valid] at h
  obtain ⟨_, upper, ⟨_, lower, ⟨_, expr, ⟨_, type, ⟨id, hid, rfl⟩, htype, rfl⟩, hexpr, rfl⟩, hlower,
    rfl⟩, hupper, rfl⟩ := h
  simp only [Json.tidy_obj, ChartPart.known, List.map_cons, List.map_nil,
    writesContent_nonEmpty _ _ _ _ hid, writesContent_nonEmpty _ _ _ _ htype,
    (writesContent_nonEmpty _).optional _ _ _ hexpr, writesContent_amount.optional _ _ _ hlower,
    writesContent_amount.optional _ _ _ hupper]
  rfl

theorem writesPart_state (n : Nat) : WritesPart .state State.toJson (stateSchema n) := by
  refine WritesPart.object fun path members s h => ?_
  simp only [read_seq_eq_valid, read_map_eq_valid] at h
  obtain ⟨_, transitions, ⟨_, onExit, ⟨_, onEntry, ⟨id, hid, rfl⟩, honEntry, rfl⟩, honExit, rfl⟩,
    htransitions, rfl⟩ := h
  simp only [Json.tidy_obj, ChartPart.known, List.map_cons, List.map_nil,
    writesContent_nonEmpty _ _ _ _ hid, writesContent_body n _ _ _ honEntry,
    writesContent_body n _ _ _ honExit,
    ((writesPart_transition n).list 0).optional _ _ _ htransitions]
  rfl

theorem writesPart_chart (n : Nat) : WritesPart .chart Chart.toJson (chartSchema n) := by
  refine WritesPart.object fun path members c h => ?_
  simp only [read_seq_eq_valid, read_map_eq_valid] at h
  obtain ⟨_, states, ⟨_, datamodel, ⟨_, initial, ⟨_, kind, ⟨name, hname, rfl⟩, hkind, rfl⟩,
    hinitial, rfl⟩, hdatamodel, rfl⟩, hstates, rfl⟩ := h
  simp only [Json.tidy_obj, ChartPart.known, List.map_cons, List.map_nil,
    writesContent_nonEmpty _ _ _ _ hname, writesContent_nonEmpty _ _ _ _ hinitial,
    writesContent_chartKind.optional _ _ _ hkind,
    (writesPart_data.list 0).optional _ _ _ hdatamodel,
    (writesPart_state n).list 1 _ _ _ hstates]
  rfl

/-- A chart is **written as it was read**, but for members that the schema does not know and the
order of the members. -/
theorem Chart.toJson_of_ofJson {j : Json} {c : Chart} (h : Chart.ofJson j = .ok c) :
    c.toJson = j.tidy .chart := by
  have hread : chartSchema j.depth [] (some j) = .valid c := by
    revert h
    rw [ofJson, Schema.read]
    cases chartSchema j.depth [] (some j) <;> simp [Verdict.toExcept, Except.mapError]
  exact (writesPart_chart j.depth [] j c hread).symm

/-! ### Charts that are the same up to edits -/

/-- Of two values that are **the same up to edits** both are charts or none is, with the same
issues. The chart that is read from both has the members in the order of the schema, is read again
from what it is written as, and is compiled from either value to the same automaton and events, the
names that are made from digests included. -/
theorem Chart.ofJson_of_sameUpToEdits {j j' : Json} (h : j.SameUpToEdits .chart j') :
    Chart.ofJson j = Chart.ofJson j' ∧
      ∀ c, Chart.ofJson j = .ok c →
        c.toJson = j.tidy .chart ∧ Chart.ofJson c.toJson = .ok c ∧
          ∀ c', Chart.ofJson j' = .ok c' →
            c' = c ∧ c'.toJson = c.toJson ∧
              ∀ setting events,
                (c'.compile setting).run.run events = (c.compile setting).run.run events := by
  have hsame : Chart.ofJson j = Chart.ofJson j' := by
    rw [← ofJson_tidy j, h.tidy_eq, ofJson_tidy j']
  refine ⟨hsame, fun c hc => ⟨toJson_of_ofJson hc, ?_, fun c' hc' => ?_⟩⟩
  · rw [toJson_of_ofJson hc, ofJson_tidy, hc]
  · rw [← hsame, hc] at hc'
    cases hc'
    exact ⟨rfl, rfl, fun _ _ => rfl⟩

/-- An assignment inside a choice, with a note and its members in another order. -/
theorem Chart.ofJson_of_sameUpToEdits_of_note :
    let assign : Json := .obj [("kind", .str "assign"), ("location", .str "x"), ("expr", .str "0")]
    let noted : Json :=
      .obj [("location", .str "x"), ("note", .obj [("by", .null)]), ("kind", .str "assign"),
        ("expr", .str "0")]
    let chart (step : Json) : Json :=
      .obj [("name", .str "robot"), ("initial", .str "idle"), ("states", .arr [
        .obj [("id", .str "idle"), ("onEntry", .arr [
          .obj [("kind", .str "if"), ("branches", .arr [
            .obj [("cond", .str "true"), ("body", .arr [step])]])]])]])]
    (chart noted).SameUpToEdits .chart (chart assign) ∧
      ∃ c, Chart.ofJson (chart noted) = .ok c ∧ Chart.ofJson (chart assign) = .ok c ∧
        c.toJson = chart assign ∧ Chart.ofJson c.toJson = .ok c := by
  intro assign noted chart
  have hstep : noted.SameUpToEdits .step assign :=
    .trans _ _ _ (.rel _ _ (@Json.Edit.drop .step [_] _ _ (by decide)))
      (.rel _ _ (@Json.Edit.swap .step [] _ _ _ (by decide)))
  have hnoted : (chart noted).SameUpToEdits .chart (chart assign) := by
    refine @Json.SameUpToEdits.inside .chart .state [_, _] [] _ [] [] _ _ (fun _ => ?_) <|
      @Json.SameUpToEdits.inside .state .step [_] [] _ [] [] _ _ (fun _ => ?_) <|
      @Json.SameUpToEdits.inside .step .branch [_] [] _ [] [] _ _ (fun _ => ?_) <|
      @Json.SameUpToEdits.inside .branch .step [_] [] _ [] [] _ _ (fun _ => ?_) hstep
    all_goals simp [ChartPart.known, ChartPart.knownInStep, Json.lookup_cons]
  have hread : (Chart.ofJson (chart noted)).toOption.map Chart.toJson = some (chart assign) := by
    decide +kernel
  obtain ⟨hsame, hagain⟩ := ofJson_of_sameUpToEdits hnoted
  cases hc : Chart.ofJson (chart noted) with
  | error ds => simp [hc, Except.toOption] at hread
  | ok c =>
    have hwritten : c.toJson = chart assign := by simpa [hc, Except.toOption] using hread
    exact ⟨hnoted, c, rfl, hsame.symm.trans hc, hwritten, (hagain c hc).2.1⟩

end ChartNet
