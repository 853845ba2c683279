import ChartNet.Proofs.History.Models
import ChartNet.Proofs.Model.Listing

/-!
# Compositions after any history

The elements of a composition are compared with the automata when it is **set**, and its vectors
cover their actions from then on: nothing but an expansion of draws brings in actions, and one that
succeeds covers them. Automata that are added later are no elements, and an expansion that fails on
its way may leave the action by which edges go on after a draw without a vector. What a written
model says of its composition follows from the last operation that set it
(`Model.composition_of_toJson`).
-/

namespace ChartNet

namespace Composition

/-- An automaton **takes part** in a composition by an action. -/
def Has (c : Composition) (automaton action : String) : Prop :=
  ∃ j ∈ c.joints, j.2 automaton = some action

/-- A composition **grows** to another one of the same elements if automata take part by all actions
by which they did. -/
structure Grows (c c' : Composition) : Prop where
  elements : c'.elements = c.elements
  has : ∀ {x action : String}, c.Has x action → c'.Has x action

variable {c c' c'' : Composition}

theorem Grows.refl (c : Composition) : c.Grows c := ⟨rfl, id⟩

theorem Grows.trans (h : c.Grows c') (h' : c'.Grows c'') : c.Grows c'' :=
  ⟨h'.elements.trans h.elements, fun hx => h'.has (h.has hx)⟩

/-- A vector of an action has it at the place of its automaton. -/
theorem grows_addSync {x action : String} (h : c.addSync action [(x, action)] = .ok c') :
    c.Grows c' ∧ c'.Has x action := by
  have hone : c.addSync action ([x].map (·, action)) = .ok c' := h
  obtain ⟨helements, hjoints⟩ := joints_addSync hone
  refine ⟨⟨helements, ?_⟩, (action, together [x] action), ?_, by simp [together]⟩
  · rintro y other ⟨j, hj, hother⟩
    exact ⟨j, hjoints ▸ Set.mem_union_left _ hj, hother⟩
  · exact hjoints ▸ Set.mem_union_right _ rfl

/-- A covered automaton takes part by all of its actions. -/
theorem grows_cover {a : Automaton} (h : c.cover a = .ok c') :
    c.Grows c' ∧ ∀ action ∈ a.actions, c'.Has a.name action := by
  have hfold : ∀ (actions : List String) {c : Composition},
      actions.foldlM (fun c action => c.addSync action [(a.name, action)]) c = .ok c' →
      c.Grows c' ∧ ∀ action ∈ actions, c'.Has a.name action := by
    intro actions
    induction actions with
    | nil =>
      rintro c ⟨⟩
      exact ⟨.refl _, by simp⟩
    | cons action actions ih =>
      intro c h
      rw [List.foldlM_cons, Result.bind_eq_ok] at h
      obtain ⟨c₁, hadd, hrest⟩ := h
      obtain ⟨hgrows, hhas⟩ := grows_addSync hadd
      obtain ⟨hgrows', hall⟩ := ih hrest
      exact ⟨hgrows.trans hgrows', List.forall_mem_cons.2 ⟨hgrows'.has hhas, hall⟩⟩
  obtain ⟨hgrows, hall⟩ := hfold _ h
  refine ⟨hgrows, fun action haction => ?_⟩
  by_cases hcovered : c.Has a.name action
  · exact hgrows.has hcovered
  · exact hall action (mem_uncovered.2 ⟨haction, hcovered⟩)

theorem grows_coverAll (automata : List Automaton) (h : automata.foldlM cover c = .ok c') :
    c.Grows c' ∧ ∀ a ∈ automata, ∀ action ∈ a.actions, c'.Has a.name action := by
  induction automata generalizing c with
  | nil =>
    cases h
    exact ⟨.refl _, by simp⟩
  | cons a automata ih =>
    rw [List.foldlM_cons, Result.bind_eq_ok] at h
    obtain ⟨c₁, hcover, hrest⟩ := h
    obtain ⟨hgrows, hhas⟩ := grows_cover hcover
    obtain ⟨hgrows', hall⟩ := ih hrest
    exact ⟨hgrows.trans hgrows', List.forall_mem_cons.2 ⟨fun x hx => hgrows'.has (hhas x hx), hall⟩⟩

end Composition

/-- An expanded automaton has the actions that it had, and the one by which edges go on after a
draw. -/
theorem Automaton.mem_actions_expandDraws {n : Size} {a a' : Automaton}
    (h : a.expandDraws n = .ok a')
    {x : String} (hx : x ∈ a'.actions) : x ∈ a.actions ∨ x = continuationAction := by
  simp only [actions, List.mem_eraseDups, List.mem_filterMap] at hx ⊢
  obtain ⟨e', he', haction⟩ := hx
  rcases (Automaton.expandDraws_ok h).2.2 e' he' with ⟨e, he, hsame⟩ | hnone | hact
  · exact .inl ⟨e, he, hsame ▸ haction⟩
  · simp [hnone] at haction
  · exact .inr (Option.some.inj (haction.symm.trans hact))

namespace Model

/-! ### Covered models -/

/-- A model is **covered** as far as some actions go: each of its automata that is an element takes
part in the composition by each of these actions of its own. -/
def Covered (p : String → Prop) (m : Model) : Prop :=
  ∀ c, m.composition = some c → ∀ a ∈ m.automata, a.name ∈ c.elements →
    ∀ x ∈ a.actions, p x → c.Has a.name x

/-- What the rest of a model may **become** while automata are expanded and actions covered: names
stay, the composition grows, and what was covered still is. -/
structure Becomes (p : String → Prop) (m m' : Model) : Prop where
  names : m'.names = m.names
  composition : Option.Rel Composition.Grows m.composition m'.composition
  covered : m.Covered p → m'.Covered p

namespace Becomes

variable {p : String → Prop} {m m' : Model}

theorem refl (p : String → Prop) (m : Model) : m.Becomes p m where
  names := rfl
  composition := by
    cases m.composition with
    | none => exact .none
    | some c => exact .some (.refl c)
  covered := id

theorem grows (h : m.Becomes p m') {c : Composition} (hc : m.composition = some c) :
    ∃ c', m'.composition = some c' ∧ c.Grows c' := by
  obtain ⟨-, hrel, -⟩ := h
  rw [hc] at hrel
  generalize m'.composition = after at hrel ⊢
  cases hrel with
  | some hgrows => exact ⟨_, rfl, hgrows⟩

theorem exists_before (h : m.Becomes p m') {c' : Composition} (hc' : m'.composition = some c') :
    ∃ c, m.composition = some c ∧ c.Grows c' := by
  obtain ⟨-, hrel, -⟩ := h
  rw [hc'] at hrel
  generalize m.composition = before at hrel ⊢
  cases hrel with
  | some hgrows => exact ⟨_, rfl, hgrows⟩

theorem addSync (h : m.Becomes p m') {c c' : Composition} {automaton action : String}
    (hc : m'.composition = some c) (hadd : c.addSync action [(automaton, action)] = .ok c') :
    m.Becomes p { m' with composition := some c' } where
  names := h.names
  composition := by
    obtain ⟨c₀, hc₀, hgrows⟩ := h.exists_before hc
    rw [hc₀]
    exact .some (hgrows.trans (Composition.grows_addSync hadd).1)
  covered hm := by
    rintro _ ⟨⟩ a ha hmem x hx hp
    obtain ⟨hgrows, -⟩ := Composition.grows_addSync hadd
    exact hgrows.has (h.covered hm c hc a ha (hgrows.elements ▸ hmem) x hx hp)

/-- An automaton may be replaced by its expansion, unless going on after a draw has to be
covered. -/
theorem replaceAutomaton (h : m.Becomes p m') (hp : ¬ p continuationAction) {n : Size}
    {a a' : Automaton} (ha : a ∈ m.automata) (ha' : a.expandDraws n = .ok a') :
    m.Becomes p (m'.replaceAutomaton a') where
  names := by
    rw [← h.names]
    simp only [Model.names, Model.replaceAutomaton, List.map_map]
    refine List.map_congr_left fun b _ => ?_
    by_cases hb : b.name = a'.name <;> simp [hb]
  composition := h.composition
  covered hm := by
    intro c' hc' b hb hmem x hx hpx
    obtain ⟨b₀, hb₀, hreplaced⟩ := List.mem_map.1 hb
    split at hreplaced
    · obtain ⟨c, hc, hgrows⟩ := h.exists_before hc'
      have hname : b.name = a.name := hreplaced ▸ (Automaton.expandDraws_ok ha').1
      rw [hname] at hmem ⊢
      rcases Automaton.mem_actions_expandDraws ha' (hreplaced ▸ hx) with hold | rfl
      · exact hgrows.has (hm c hc a ha (hgrows.elements ▸ hmem) x hold hpx)
      · exact absurd hpx hp
    · exact h.covered hm c' hc' b (hreplaced ▸ hb₀) hmem x hx hpx

end Becomes

/-- What completing a composition leaves, also when it fails. -/
theorem becomes_completeComposition (p : String → Prop) (m : Model) :
    m.Becomes p (completeComposition.after m) :=
  related_completeComposition (R := Build.Preserves (m.Becomes p))
    (fun _ _ _ _ _ hc hadd h => h.addSync hc hadd) m (.refl p m)

/-- What expanding draws leaves, also when it fails. -/
theorem becomes_expandDraws {p : String → Prop} (hp : ¬ p continuationAction) (n : Size)
    (m : Model) :
    m.Becomes p ((expandDraws n).after m) :=
  related_expandDraws (R := Build.Preserves (m.Becomes p)) m
    (fun _ ha _ ha' _ h => h.replaceAutomaton hp ha ha')
    (fun _ _ _ _ _ hc hadd h => h.addSync hc hadd)
    (.refl p m)

/-- **A composition that was completed covers all automata.** -/
theorem covered_of_yields {m m' : Model} {u : Unit} (h : completeComposition.Yields m u m')
    (p : String → Prop) : m'.Covered p := by
  cases hc : m.composition with
  | none => simp [completeComposition, requireComposition, hc, failModel] at h
  | some c =>
    obtain ⟨c', hcover, rfl⟩ := (yields_completeComposition hc).1 h
    rintro _ ⟨⟩ a ha - x hx -
    exact (Composition.grows_coverAll _ hcover).2 a ha x hx

/-- A composition that lists the automata can be completed. -/
theorem succeeds_completeComposition {m : Model} {c : Composition} (hc : m.composition = some c)
    (hnodup : m.names.Nodup) (helements : ∀ x, x ∈ m.names ↔ x ∈ c.elements) :
    completeComposition.succeeds m := by
  obtain ⟨c', hcover, -⟩ := Composition.joints_coverAll (c := c) m.automata hnodup
    fun a ha => (helements a.name).1 (List.mem_map_of_mem ha)
  have hyields := (yields_completeComposition (u := ()) hc).2 ⟨c', hcover, rfl⟩
  exact Build.succeeds_iff.2 ⟨(), hyields.after_eq.symm ▸ hyields⟩

/-- **A model whose draws were expanded is covered.** -/
theorem covered_of_expandDraws {n : Size} {m m' : Model} {u : Unit}
    (h : (expandDraws n).Yields m u m') (p : String → Prop) : m'.Covered p := by
  cases hc : m.composition with
  | none =>
    have hbecomes := becomes_expandDraws (p := fun _ => False) id n m
    rw [h.after_eq] at hbecomes
    intro c' hc'
    obtain ⟨c, hsome, -⟩ := hbecomes.exists_before hc'
    simp [hc] at hsome
  | some c =>
    obtain ⟨m₁, -, hcomplete⟩ := yields_expandDraws_of_some h hc
    exact covered_of_yields hcomplete p

/-! ### Steps -/

/-- An operation **covers** the actions of a model when it succeeds. -/
def Operation.IsCovering : Operation → Prop
  | setComposition _ | completeComposition | expandDraws _ => True
  | _ => False

/-- The name of the automaton that an operation **adds** if it succeeds. -/
def Operation.addedName : Operation × Bool → Option String
  | (addAutomaton a, true) => some a.name
  | _ => none

theorem Operation.exists_of_addedName {op : Operation} {ok : Bool} {x : String}
    (h : addedName (op, ok) = some x) : ∃ a, op = addAutomaton a ∧ ok = true := by
  unfold addedName at h
  split at h
  · rename_i a heq
    obtain ⟨rfl, rfl⟩ := Prod.mk.inj heq
    exact ⟨a, rfl, rfl⟩
  · simp at h

namespace Effect

variable {m m' : Model} {op : Operation}

/-- Names are only added, and only by adding an automaton. -/
theorem names (h : m.Effect op m') :
    m'.names = m.names ++ (Operation.addedName (op, op.succeeds m)).toList := by
  cases h with
  | declared hop hautomata _ =>
    have hnone : Operation.addedName (op, op.succeeds m) = none := by
      cases op <;> first | rfl | exact hop.elim
    simp [Model.names, hautomata, hnone]
  | refused hfail =>
    rw [hfail]
    cases op <;> simp [Operation.addedName]
  | added hok hadd =>
    rw [hok, (addAutomaton_ok hadd).2]
    simp [Model.names, Operation.addedName]
  | removed x =>
    simp [Model.names, Model.removeAction, Automaton.removeAction, Operation.addedName,
      Function.comp_def]
  | @composed c _ _ =>
    have hbecomes := becomes_completeComposition (fun _ => True) { m with composition := some c }
    have hnames : _ = m.names := hbecomes.names
    simp [hnames, Operation.addedName]
  | completed =>
    simp [(becomes_completeComposition (fun _ => True) m).names, Operation.addedName]
  | expanded n =>
    simp [(becomes_expandDraws (p := fun _ => False) id n m).names, Operation.addedName]

/-- Names stay distinct. -/
theorem nodup (h : m.Effect op m') (hnodup : m.names.Nodup) : m'.names.Nodup := by
  cases hname : Operation.addedName (op, op.succeeds m) with
  | none => simpa [h.names, hname] using hnodup
  | some x =>
    obtain ⟨a, rfl, hok⟩ := Operation.exists_of_addedName hname
    cases h with
    | declared hop _ _ => exact hop.elim
    | refused hfail => simp [hfail] at hok
    | added _ hadd => exact nodup_addAutomaton hadd hnodup

/-- **An operation that covers a model and succeeds leaves it covered.** -/
theorem covered_of_succeeds (h : m.Effect op m') (hop : op.IsCovering) (hok : op.succeeds m = true)
    (p : String → Prop) : m'.Covered p := by
  cases h with
  | declared hdeclaration _ _ => cases op <;> first | exact hop.elim | exact hdeclaration.elim
  | refused hfail => simp [hfail] at hok
  | added _ _ => exact hop.elim
  | removed x => exact hop.elim
  | composed _ hsame =>
    obtain ⟨u, hyields⟩ := Build.succeeds_iff.1 (hsame ▸ hok)
    exact covered_of_yields hyields p
  | completed =>
    obtain ⟨u, hyields⟩ := Build.succeeds_iff.1 hok
    exact covered_of_yields hyields p
  | expanded n =>
    obtain ⟨u, hyields⟩ := Build.succeeds_iff.1 hok
    exact covered_of_expandDraws hyields p

/-- A composition that lists the automata is accepted. -/
theorem succeeds_setComposition (hnodup : m.names.Nodup) {c : Composition}
    (hcheck : m.checkElements c = .ok ())
    (hok : (Operation.setComposition c).succeeds m =
      Build.succeeds completeComposition { m with composition := some c }) :
    (Operation.setComposition c).succeeds m = true :=
  hok.trans (succeeds_completeComposition rfl hnodup (checkElements_eq_ok.1 hcheck))

/-- **A covered model stays covered**, unless going on after a draw has to be covered and expanding
draws fails. -/
theorem covered (h : m.Effect op m') (hnodup : m.names.Nodup)
    (helements : ∀ c, m.composition = some c → ∀ x ∈ c.elements, x ∈ m.names) {p : String → Prop}
    (hp : ¬ p continuationAction ∨ ∀ n, op = .expandDraws n → op.succeeds m = true)
    (hm : m.Covered p) : m'.Covered p := by
  cases h with
  | declared _ hautomata hcomposition =>
    intro c hc
    rw [hautomata]
    exact hm c (hcomposition ▸ hc)
  | refused _ => exact hm
  | added _ hadd =>
    obtain ⟨hnew, rfl⟩ := addAutomaton_ok hadd
    intro c hc b hb hmem
    rcases List.mem_append.1 hb with hb | hb
    · exact hm c hc b hb hmem
    · -- No composition has an automaton among its elements before it is added.
      rw [List.mem_singleton.1 hb] at hmem
      exact absurd (helements c hc _ hmem) hnew
  | removed x =>
    intro c hc b hb hmem y hy
    obtain ⟨a, ha, rfl⟩ := List.mem_map.1 hb
    have hold : y ∈ a.actions := by
      simp only [Automaton.actions, Automaton.removeAction, List.mem_eraseDups, List.mem_filterMap,
        List.mem_filter] at hy ⊢
      obtain ⟨e, ⟨he, -⟩, haction⟩ := hy
      exact ⟨e, he, haction⟩
    exact hm c hc a ha hmem y hold
  | composed hcheck hsame =>
    have hok := succeeds_setComposition hnodup hcheck hsame
    exact (Effect.composed hcheck hsame).covered_of_succeeds trivial hok p
  | completed => exact (becomes_completeComposition p m).covered hm
  | expanded n =>
    rcases hp with hp | hp
    · exact (becomes_expandDraws hp n m).covered hm
    · exact (Effect.expanded n).covered_of_succeeds trivial (hp n rfl) p

/-- The elements of a composition are those that it had, or those that it was set with. -/
theorem elements (h : m.Effect op m') (hnodup : m.names.Nodup) {c' : Composition}
    (hc' : m'.composition = some c') :
    (∃ c, m.composition = some c ∧ c'.elements = c.elements ∧
      ∀ c₀, op = .setComposition c₀ → op.succeeds m = false) ∨
    ∃ c, op = .setComposition c ∧ op.succeeds m = true ∧ c'.elements = c.elements ∧
      ∀ x, x ∈ m.names ↔ x ∈ c.elements := by
  cases h with
  | declared hop _ hcomposition =>
    exact .inl ⟨c', hcomposition ▸ hc', rfl, by rintro _ rfl; exact hop.elim⟩
  | refused hfail => exact .inl ⟨c', hc', rfl, fun _ _ => hfail⟩
  | added _ hadd =>
    obtain ⟨-, rfl⟩ := addAutomaton_ok hadd
    exact .inl ⟨c', hc', rfl, by simp⟩
  | removed x => exact .inl ⟨c', hc', rfl, by simp⟩
  | @composed c hcheck hsame =>
    have hbecomes := becomes_completeComposition (fun _ => True) { m with composition := some c }
    obtain ⟨c₁, ⟨⟩, hgrows⟩ := hbecomes.exists_before hc'
    exact .inr ⟨c, rfl, succeeds_setComposition hnodup hcheck hsame, hgrows.elements,
      checkElements_eq_ok.1 hcheck⟩
  | completed =>
    obtain ⟨c, hc, hgrows⟩ := (becomes_completeComposition (fun _ => True) m).exists_before hc'
    exact .inl ⟨c, hc, hgrows.elements, by simp⟩
  | expanded n =>
    obtain ⟨c, hc, hgrows⟩ :=
      (becomes_expandDraws (p := fun _ => False) id n m).exists_before hc'
    exact .inl ⟨c, hc, hgrows.elements, by simp⟩

end Effect

/-! ### Runs -/

/-- The model after operations in turn, failed ones included. -/
def run (m : Model) (ops : List Operation) : Model :=
  ops.foldl (fun m op => op.after m) m

/-- Operations in turn, each with its **verdict**: whether it succeeded. -/
def verdicts (m : Model) : List Operation → List (Operation × Bool)
  | [] => []
  | op :: ops => (op, op.succeeds m) :: (op.after m).verdicts ops

theorem run_append (m : Model) (ops ops' : List Operation) :
    m.run (ops ++ ops') = (m.run ops).run ops' := List.foldl_append

theorem verdicts_append (m : Model) (ops ops' : List Operation) :
    m.verdicts (ops ++ ops') = m.verdicts ops ++ (m.run ops).verdicts ops' := by
  induction ops generalizing m with
  | nil => rfl
  | cons op ops ih => exact congrArg ((op, op.succeeds m) :: ·) (ih _)

/-- Among the operations from a model on, the composition was **last set** to one, after some and
before some others. -/
structure LastSet (m : Model) (before : List Operation) (c : Composition) (after : List Operation) :
    Prop where
  accepted : (Operation.setComposition c).succeeds (m.run before) = true
  last : ∀ c', (.setComposition c', true) ∉ (m.run (before ++ [.setComposition c])).verdicts after

/-- Operations leave a model **settled** if one covered it and no expansion of draws failed
since. -/
def Settled (m : Model) (ops : List Operation) : Prop :=
  ∃ before op after, ops = before ++ op :: after ∧ op.IsCovering ∧
    op.succeeds (m.run before) = true ∧
    ∀ n, (.expandDraws n, false) ∉ (m.run (before ++ [op])).verdicts after

/-- What is true after operations on a model: its automata have distinct names, its composition is
the one that was last set, as far as its elements go, and covers them. -/
structure Traced (m : Model) (ops : List Operation) : Prop where
  nodup : (m.run ops).names.Nodup
  composed : ∀ c, (m.run ops).composition = some c → ∃ before c₀ after,
    ops = before ++ .setComposition c₀ :: after ∧ m.LastSet before c₀ after ∧
      c.elements = c₀.elements ∧ (∀ x, x ∈ (m.run before).names ↔ x ∈ c₀.elements) ∧
      (m.run ops).names = (m.run before).names ++
        ((m.run (before ++ [.setComposition c₀])).verdicts after).filterMap Operation.addedName
  covered : (m.run ops).Covered (· ≠ continuationAction)
  settled : m.Settled ops → (m.run ops).Covered fun _ => True

namespace Traced

variable {m : Model} {ops : List Operation}

/-- Elements are names of automata. -/
theorem mem_names (h : m.Traced ops) (c : Composition) (hc : (m.run ops).composition = some c)
    (x : String) (hx : x ∈ c.elements) : x ∈ (m.run ops).names := by
  obtain ⟨before, c₀, after, -, -, helements, hnames, heq⟩ := h.composed c hc
  rw [heq]
  exact List.mem_append_left _ ((hnames x).2 (helements ▸ hx))

/-- **One more operation** keeps all of this. -/
theorem snoc (h : m.Traced ops) (op : Operation) : m.Traced (ops ++ [op]) := by
  have hrun : m.run (ops ++ [op]) = op.after (m.run ops) := run_append m ops [op]
  have heffect := op.effect (m.run ops)
  constructor
  · rw [hrun]
    exact heffect.nodup h.nodup
  · intro c hc
    rw [hrun] at hc
    -- the composition was there before, and the operation set no other, or the operation set it
    rcases heffect.elements h.nodup hc with ⟨c₁, hc₁, hsame, hrefused⟩ |
        ⟨c₀, rfl, hok, hsame, hnames⟩
    · obtain ⟨before, c₀, after, rfl, hlast, helements, hbefore, hafter⟩ := h.composed c₁ hc₁
      have hverdicts : (m.run (before ++ [.setComposition c₀])).verdicts (after ++ [op]) =
          (m.run (before ++ [.setComposition c₀])).verdicts after ++
            [(op, op.succeeds (m.run (before ++ .setComposition c₀ :: after)))] := by
        rw [verdicts_append, ← run_append]
        simp [verdicts]
      refine ⟨before, c₀, after ++ [op], by simp, ⟨hlast.accepted, fun c' hmem => ?_⟩,
        hsame.trans helements, hbefore, ?_⟩
      · rw [hverdicts, List.mem_append, List.mem_singleton] at hmem
        rcases hmem with hmem | hmem
        · exact hlast.last c' hmem
        · obtain ⟨hop, hok⟩ := Prod.mk.inj hmem
          simp [hrefused c' hop.symm] at hok
      · rw [hrun, heffect.names, hafter, hverdicts, List.filterMap_append, List.append_assoc]
        congr 2
    · refine ⟨ops, c₀, [], rfl, ⟨hok, by simp [verdicts]⟩, hsame, hnames, ?_⟩
      rw [hrun, heffect.names]
      simp [verdicts, Operation.addedName]
  · rw [hrun]
    exact heffect.covered h.nodup h.mem_names (.inl (by simp)) h.covered
  · rintro ⟨before, op₀, after, heq, hcovering, hok, hnone⟩
    rw [hrun]
    -- the operation itself covers the model, or an earlier one does and nothing failed since
    rcases List.eq_nil_or_concat after with rfl | ⟨after, last, rfl⟩
    · obtain ⟨rfl, hlast⟩ := List.append_inj' heq rfl
      obtain rfl := List.singleton_inj.1 hlast
      exact heffect.covered_of_succeeds hcovering hok _
    · rw [List.concat_eq_append] at heq hnone
      rw [← List.cons_append, ← List.append_assoc] at heq
      obtain ⟨rfl, hlast⟩ := List.append_inj' heq rfl
      obtain rfl := List.singleton_inj.1 hlast
      rw [verdicts_append, ← run_append] at hnone
      simp only [List.append_assoc, List.singleton_append, verdicts, List.mem_append,
        List.mem_singleton, not_or] at hnone
      refine heffect.covered h.nodup h.mem_names (.inr ?_)
        (h.settled ⟨before, op₀, after, rfl, hcovering, hok, fun n => (hnone n).1⟩)
      rintro n rfl
      exact Bool.not_eq_false _ ▸ fun hfail => (hnone n).2 (by rw [hfail])

end Traced

/-- **After any operations** on a new model, all of this is true. -/
theorem traced (name : String) (ops : List Operation) : ({ name } : Model).Traced ops := by
  induction ops using List.reverseRecOn with
  | nil =>
    exact
      { nodup := .nil
        composed := by simp [run]
        covered := by simp [Covered, run]
        settled := fun _ => by simp [Covered, run] }
  | append_singleton ops op ih => exact ih.snoc op

/-! ### Written compositions -/

end Model

/-- A written composition has a vector with an **action at a place**. -/
def Json.HasVector (system : Json) (i : Nat) (action : String) : Prop :=
  ∃ s ∈ (system.items? "syncs").getD [],
    ((s.items? "synchronise").getD [])[i]? = some (.str action)

instance (system : Json) (i : Nat) (action : String) : Decidable (system.HasVector i action) :=
  inferInstanceAs (Decidable (∃ s ∈ (system.items? "syncs").getD [], _))

theorem Composition.Has.hasVector {c : Composition} {x action : String}
    (h : c.Has x action) {i : Nat}
    (hi : c.elements[i]? = some x) : c.toJson.HasVector i action := by
  obtain ⟨_, ⟨s, hs, rfl⟩, haction⟩ := h
  obtain ⟨-, syncs, hsyncs, hforall⟩ := c.toJson_reads
  obtain ⟨j, hj, -, hvector⟩ := exists_of_mem_forall₂ hforall.flip (List.mem_mergeSort.2 hs)
  have hentry : assocGet? s.participants x = some action := haction
  refine ⟨j, by rwa [hsyncs], ?_⟩
  rw [hvector]
  simp [vector, hi, hentry]

namespace Model

/-- **What a written model says of its composition.** After any operations, failed ones included, a
model can be written only if its composition was set. The elements are the automata that it had when
the composition was last set, each once; so they are all automata unless some were added since. Each
action of such an automaton stands at its place in some vector, except that the action by which
edges go on after a draw may be missing if expanding draws failed since the model was last
covered. -/
theorem composition_of_toJson {name : String} {ops : List Operation}
    (hops : ∀ op ∈ ops, op.IsProper) {json : Json} :
    let start : Model := { name }
    (start.run ops).toJson = .ok json →
      ∃ before c after system elements, ops = before ++ .setComposition c :: after ∧
        start.LastSet before c after ∧ json.get? "system" = some system ∧
        system.texts? "elements" "automaton" = some elements ∧
        elements.Nodup ∧ elements.Perm (start.run before).names ∧
        (start.run ops).names = (start.run before).names ++
          ((start.run (before ++ [.setComposition c])).verdicts after).filterMap
            Operation.addedName ∧
        ∀ a ∈ (start.run ops).automata, ∀ i, elements[i]? = some a.name → ∀ x ∈ a.actions,
          x ≠ continuationAction ∨ start.Settled ops → system.HasVector i x := by
  intro start h
  obtain ⟨-, -, c, hc, hsystem⟩ := Model.toJson_reads h
  have htraced := traced name ops
  obtain ⟨before, c₀, after, rfl, hlast, helements, hnames, hafter⟩ := htraced.composed c hc
  have hbuilt : c₀.Built := hops (.setComposition c₀) (by simp)
  have hnodup : c.elements.Nodup := helements ▸ hbuilt.nodup
  refine ⟨before, c₀, after, _, c.elements, rfl, hlast, hsystem, c.toJson_reads.1, hnodup,
    ?_, hafter, ?_⟩
  · refine (List.perm_ext_iff_of_nodup hnodup (traced name before).nodup).2 fun x => ?_
    rw [helements, hnames]
  · intro a ha i hi x hx hcase
    have hmem : a.name ∈ c.elements := List.mem_of_getElem? hi
    have hhas : c.Has a.name x := by
      rcases hcase with hne | hsettled
      · exact htraced.covered c hc a ha hmem x hx hne
      · exact htraced.settled hsettled c hc a ha hmem x hx trivial
    exact hhas.hasVector hi

/-- Two automata are composed, and the draws of one of them are expanded. -/
theorem composition_of_toJson_of_two_automata :
    let step : Edge :=
      { location := "idle", action := some "step"
        destinations := [{ location := some "busy"
                           assignments := [{ ref := .ident "x", value := .uniform 0 1 }] }] }
    let left := (Automaton.Operation.addEdge step).apply
      ((Automaton.Operation.setInitial "idle").apply { name := "left" })
    let right := (Automaton.Operation.setInitial "idle").apply { name := "right" }
    let ops : List Operation := [.addAutomaton left, .addAutomaton right,
      .setComposition { elements := ["right", "left"] }, .expandDraws (.whole 2)]
    let start : Model := { name := "network" }
    ∃ json, (start.run ops).toJson = .ok json ∧ start.Settled ops ∧
      ∃ before c after system elements, ops = before ++ .setComposition c :: after ∧
        start.LastSet before c after ∧ json.get? "system" = some system ∧
        system.texts? "elements" "automaton" = some elements ∧
        elements.Nodup ∧ elements.Perm (start.run before).names ∧
        (start.run ops).names = (start.run before).names ++
          ((start.run (before ++ [.setComposition c])).verdicts after).filterMap
            Operation.addedName ∧
        ∀ a ∈ (start.run ops).automata, ∀ i, elements[i]? = some a.name → ∀ x ∈ a.actions,
          x ≠ continuationAction ∨ start.Settled ops → system.HasVector i x := by
  intro step left right ops start
  have hleft : left.Built := ((Automaton.Built.new "left").operation _).operation _
  have hright : right.Built := (Automaton.Built.new "right").operation _
  have helements : Composition.Built { elements := ["right", "left"] } :=
    .addElement (c := { elements := ["right"] }) (x := "left") (.addElement .empty rfl) rfl
  have hops : ∀ op ∈ ops, op.IsProper := by
    simp only [ops, List.forall_mem_cons]
    exact ⟨hleft, hright, helements, trivial, by simp⟩
  have hwritten : ((start.run ops).toJson.toOption.any fun _ => true) = true := by decide +kernel
  obtain ⟨json, hjson, -⟩ := Result.exists_of_any hwritten
  refine ⟨json, hjson, ⟨ops.take 3, .expandDraws (.whole 2), [], rfl, trivial, ?_,
    by simp [verdicts]⟩, composition_of_toJson hops hjson⟩
  decide +kernel

/-- **A written composition may lack automata and actions.** An automaton that is added once the
composition is set is no element of it; and an expansion that fails at a random initial value leaves
the automaton before it with an action that no vector has. -/
theorem composition_of_toJson_incomplete :
    let step : Edge :=
      { location := "idle", action := some "step"
        destinations := [{ location := some "busy"
                           assignments := [{ ref := .ident "x", value := .uniform 0 1 }] }] }
    let left := (Automaton.Operation.addEdge step).apply
      ((Automaton.Operation.setInitial "idle").apply { name := "left" })
    let right := (Automaton.Operation.addVariable
        { name := "y", type := .real, init := .uniform 0 1 }).apply
      ((Automaton.Operation.setInitial "idle").apply { name := "right" })
    let late : List Operation :=
      [.addAutomaton left, .setComposition { elements := ["left"] }, .addAutomaton right]
    let failed : List Operation := [.addAutomaton left, .addAutomaton right,
      .setComposition { elements := ["left", "right"] }, .expandDraws (.whole 2)]
    let start : Model := { name := "network" }
    (∃ json system elements, (start.run late).toJson = .ok json ∧ json.get? "system" = some system ∧
      system.texts? "elements" "automaton" = some elements ∧
      "right" ∈ (start.run late).names ∧ "right" ∉ elements) ∧
    ∃ json system elements, (start.run failed).toJson = .ok json ∧
      json.get? "system" = some system ∧
      system.texts? "elements" "automaton" = some elements ∧
      ∃ a ∈ (start.run failed).automata, elements[0]? = some a.name ∧
        continuationAction ∈ a.actions ∧ ¬ system.HasVector 0 continuationAction := by
  intro step left right late failed start
  -- one automaton is added after the composition was set; one expansion fails halfway
  have hlate : ((start.run late).toJson.toOption.any fun json => (json.get? "system").any
    fun system =>
      (system.texts? "elements" "automaton").any fun elements =>
        decide ("right" ∈ (start.run late).names ∧ "right" ∉ elements)) = true := by decide +kernel
  have hfailed : ((start.run failed).toJson.toOption.any fun json =>
      (json.get? "system").any fun system =>
        (system.texts? "elements" "automaton").any fun elements =>
          decide (∃ a ∈ (start.run failed).automata, elements[0]? = some a.name ∧
            continuationAction ∈ a.actions ∧ ¬ system.HasVector 0 continuationAction)) = true := by
    decide +kernel
  simp only [Option.any_eq_true, decide_eq_true_eq] at hlate hfailed
  obtain ⟨json, hjson, system, hsystem, elements, helements, hright⟩ := hlate
  obtain ⟨json', hjson', system', hsystem', elements', helements', hleft⟩ := hfailed
  exact ⟨⟨json, system, elements, Result.eq_ok_of_toOption hjson, hsystem, helements, hright⟩,
    json', system', elements', Result.eq_ok_of_toOption hjson', hsystem', helements', hleft⟩

end Model

end ChartNet
