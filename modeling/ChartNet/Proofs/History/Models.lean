import ChartNet.Proofs.History.Automata
import ChartNet.Proofs.History.Builds
import ChartNet.Proofs.Order.Stages

/-!
# Histories of models

A model is built by **operations**, in any order. One that fails may have done a part of its work:
an expansion that meets a random initial value has rewritten the automata before, and a completion
that meets an automaton outside the composition has covered those before. So what is said here of an
operation is said of the model that it leaves, whether it succeeded or not. Covering only adds
synchronisations (`Model.related_completeComposition`), and expanding replaces automata by their
expansions and then covers (`Model.related_expandDraws`).
-/

namespace ChartNet

/-! ### Parts of operations -/

/-- Expanding draws replaces the edges of an automaton. -/
theorem Automaton.leads_expandDraws {n : Size} {a a' : Automaton} (h : a.expandDraws n = .ok a') :
    a.Leads a' := by
  obtain ⟨edges, -, heq⟩ := Result.bind_eq_ok.1 h
  cases heq
  exact .of_operation (.replaceEdges edges.flatten) a

/-- A composition that was **built**, by adding elements and synchronisations to an empty one. -/
inductive Composition.Built : Composition → Prop
  | empty : Built {}
  | addElement {c c' : Composition} {x : String} (h : Built c)
    (hadd : c.addElement x = .ok c') : Built c'
  | addSync {c c' : Composition} {result : String} {participants : List (String × String)}
    (h : Built c)
      (hadd : c.addSync result participants = .ok c') : Built c'

/-- Elements of a composition are distinct. -/
theorem Composition.Built.nodup {c : Composition} (h : c.Built) : c.elements.Nodup := by
  induction h with
  | empty => exact .nil
  | addElement _ hadd ih =>
    obtain ⟨hnew, rfl⟩ := addElement_ok hadd
    simpa using ih.concat hnew
  | addSync _ hadd ih =>
    rw [addSync_ok hadd]
    exact ih

namespace Model

section Related

variable {R : Model → Model → Prop} [IsPreorder Model R]

/-- Covering actions adds synchronisations one by one. -/
theorem related_coverActions (automaton : String) (actions : List String)
    (hadd : ∀ (m : Model) {c c' : Composition} {action : String}, m.composition = some c →
      c.addSync action [(automaton, action)] = .ok c' → R m { m with composition := some c' })
    (m : Model) : R m ((coverActions automaton actions).after m) := by
  induction actions generalizing m with
  | nil => exact Std.Refl.refl _
  | cons action actions ih =>
    refine Build.after_bind ?_ fun _ m' _ => ih m'
    rcases Build.after_change (changeComposition (·.addSync action [(automaton, action)])) m with
      ⟨-, h⟩ | ⟨-, h⟩
    · cases hc : m.composition with
      | none => simp [changeComposition, requireComposition, hc, failModel, bind, Except.bind] at h
      | some c =>
        obtain ⟨c', hadded, heq⟩ := changeComposition_ok hc h
        exact heq ▸ hadd m hc hadded
    · rw [h]
      exact Std.Refl.refl _

/-- **Completing** a composition adds synchronisations one by one, as far as it comes. -/
theorem related_completeComposition
    (hadd : ∀ (m : Model) {c c' : Composition} {automaton action : String}, m.composition = some c →
      c.addSync action [(automaton, action)] = .ok c' → R m { m with composition := some c' })
    (m : Model) : R m (completeComposition.after m) := by
  have hall : ∀ (automata : List Automaton) (m : Model),
    R m ((coverAutomata automata).after m) := by
    intro automata
    induction automata with
    | nil => exact fun m => Std.Refl.refl _
    | cons a automata ih =>
      intro m
      refine Build.after_bind (Std.Refl.refl _) fun _ _ _ => ?_
      refine Build.after_bind (Std.Refl.refl _) fun c m' _ => ?_
      exact Build.after_bind (related_coverActions a.name _ (fun m => hadd m) m')
        fun _ m'' _ => ih m''
  refine Build.after_bind (Std.Refl.refl _) fun _ _ _ => ?_
  exact Build.after_bind (Std.Refl.refl _) fun _ m' _ => hall _ m'

/-- Expanding automata replaces them one by one, as far as it comes. -/
theorem related_expandAutomata {n : Size} (automata : List Automaton)
    (hreplace : ∀ a ∈ automata, ∀ {a' : Automaton}, a.expandDraws n = .ok a' →
      ∀ m : Model, R m (m.replaceAutomaton a')) (m : Model) :
    R m ((expandAutomata n automata).after m) := by
  induction automata generalizing m with
  | nil => exact Std.Refl.refl _
  | cons a automata ih =>
    rw [List.forall_mem_cons] at hreplace
    refine Build.after_bind (Std.Refl.refl _) fun _ _ _ => ?_
    refine Build.after_bind (Std.Refl.refl _) fun a' m' h => ?_
    obtain ⟨ha', -⟩ := Build.yields_ofResult.1 h
    exact Build.after_bind (hreplace.1 ha' m') fun _ m'' _ => ih hreplace.2 m''

/-- **Expanding** a model replaces its automata by their expansions and completes the composition,
as far as it comes. -/
theorem related_expandDraws {n : Size} (m : Model)
    (hreplace : ∀ a ∈ m.automata, ∀ {a' : Automaton}, a.expandDraws n = .ok a' →
      ∀ m : Model, R m (m.replaceAutomaton a'))
    (hadd : ∀ (m : Model) {c c' : Composition} {automaton action : String}, m.composition = some c →
      c.addSync action [(automaton, action)] = .ok c' → R m { m with composition := some c' }) :
    R m ((expandDraws n).after m) := by
  unfold expandDraws
  have hrest : R m ((do
      let m ← get
      .ofResult (m.vars.forM (·.checkInit none))
      expandAutomata n m.automata
      if m.composition.isSome then completeComposition : ModelM Unit).after m) := by
    refine Build.after_bind (Std.Refl.refl _) fun m₀ m₁ h => ?_
    obtain ⟨rfl, rfl⟩ := Build.yields_get.1 h
    refine Build.after_bind (Std.Refl.refl _) fun _ m₂ h => ?_
    obtain ⟨-, rfl⟩ := Build.yields_ofResult.1 h
    refine Build.after_bind (related_expandAutomata _ hreplace _) fun _ m₃ _ => ?_
    split
    · exact related_completeComposition hadd m₃
    · exact Std.Refl.refl _
  split
  · exact Build.after_bind (Std.Refl.refl _) fun _ m' h => by
      obtain ⟨-, rfl⟩ := Build.yields_ofResult.1 h
      exact hrest
  · exact hrest

end Related

/-! ### Operations -/

/-- An **operation** on a model. -/
inductive Operation where
  | describe (text : String)
  | addVariable (v : Variable)
  | addConstant (c : Constant)
  | addAutomaton (a : Automaton)
  | addProperty (p : Property)
  | removeAction (action : String)
  | setComposition (c : Composition)
  | completeComposition
  | expandDraws (n : Size)

namespace Operation

/-- The **build** that an operation stands for. -/
def build : Operation → ModelM Unit
  | describe text => modify fun m => { m with description := text }
  | addVariable v => .change (Model.addVariable v)
  | addConstant c => .change (Model.addConstant c)
  | addAutomaton a => .change (Model.addAutomaton a)
  | addProperty p => .change (Model.addProperty p)
  | removeAction x => modify (Model.removeAction · x)
  | setComposition c => Model.setComposition c
  | completeComposition => Model.completeComposition
  | expandDraws n => Model.expandDraws n

/-- The model that an operation leaves, also when it fails. -/
def after (op : Operation) (m : Model) : Model := op.build.after m

/-- Whether an operation succeeds. -/
def succeeds (op : Operation) (m : Model) : Bool := op.build.succeeds m

/-- An operation is a **declaration** if it has to do neither with automata nor with the
composition. -/
def IsDeclaration : Operation → Prop
  | describe _ | addVariable _ | addConstant _ | addProperty _ => True
  | _ => False

/-- An operation is **proper** if the automaton or the composition that it adds was itself built by
operations. -/
def IsProper : Operation → Prop
  | addAutomaton a => a.Built
  | setComposition c => c.Built
  | _ => True

end Operation

/-- The model after an operation on its automaton of some name. -/
def changeAutomaton (name : String) (op : Automaton.Operation) (m : Model) : Model :=
  { m with automata := m.automata.map fun a => if a.name = name then op.apply a else a }

/-- A model that was **built** by operations on it and on its automata. -/
inductive Built : Model → Prop
  | new (name : String) : Built { name }
  | operation {m : Model} (h : Built m) (op : Operation) (hop : op.IsProper) : Built (op.after m)
  | change {m : Model} (h : Built m) (name : String) (op : Automaton.Operation) :
      Built (m.changeAutomaton name op)

/-! ### What an operation does -/

/-- A declaration leaves the automata and the composition as they are, also when it is refused. -/
theorem same_after_change {f : Model → Result Model} (hf : Keeps (.change f)) (m : Model) :
    ((Build.change f : ModelM Unit).after m).automata = m.automata ∧
      ((Build.change f : ModelM Unit).after m).composition = m.composition := by
  rcases Build.after_change f m with ⟨-, h⟩ | ⟨-, h⟩
  · exact hf m _ () (Build.yields_change.2 h)
  · rw [h]
    exact ⟨rfl, rfl⟩

/-- The **effect** of an operation on the automata and the composition of a model. -/
inductive Effect (m : Model) : Operation → Model → Prop
  | declared {op : Operation} {m' : Model} (hop : op.IsDeclaration)
    (automata : m'.automata = m.automata)
      (composition : m'.composition = m.composition) : Effect m op m'
  | refused {op : Operation} (h : op.succeeds m = false) : Effect m op m
  | added {a : Automaton} {m' : Model} (hok : (Operation.addAutomaton a).succeeds m = true)
      (h : addAutomaton a m = .ok m') : Effect m (.addAutomaton a) m'
  | removed (x : String) : Effect m (.removeAction x) (m.removeAction x)
  | composed {c : Composition} (h : m.checkElements c = .ok ())
      (hok : (Operation.setComposition c).succeeds m =
        Build.succeeds Model.completeComposition { m with composition := some c }) :
      Effect m (.setComposition c) (completeComposition.after { m with composition := some c })
  | completed : Effect m .completeComposition (completeComposition.after m)
  | expanded (n : Size) : Effect m (.expandDraws n) ((expandDraws n).after m)

/-- **What an operation leaves**, whether it succeeds or not. -/
theorem Operation.effect (op : Operation) (m : Model) : m.Effect op (op.after m) := by
  have hdeclared {f : Model → Result Model} (hop : op.IsDeclaration) (hbuild : op.build = .change f)
      (hf : Keeps (.change f)) : m.Effect op (op.after m) := by
    obtain ⟨hautomata, hcomposition⟩ := same_after_change hf m
    exact .declared hop (by rwa [after, hbuild]) (by rwa [after, hbuild])
  cases op with
  | describe text => exact .declared trivial rfl rfl
  | addVariable v => exact hdeclared trivial rfl (.addVariable v)
  | addConstant c => exact hdeclared trivial rfl (.addConstant c)
  | addProperty p => exact hdeclared trivial rfl (.addProperty p)
  | addAutomaton a =>
    rcases Build.after_change (Model.addAutomaton a) m with ⟨hok, h⟩ | ⟨hfail, h⟩
    · exact .added hok h
    · have hsame : (Operation.addAutomaton a).after m = m := h
      exact hsame.symm ▸ .refused hfail
  | removeAction x => exact .removed x
  | setComposition c =>
    have hget : (get : ModelM Model).Yields m m m := Build.yields_get.2 ⟨rfl, rfl⟩
    cases hcheck : m.checkElements c with
    | ok u =>
      -- the two steps before the completion succeed, so the completion decides
      have hpass : (.ofResult (.ok u) : ModelM Unit).Yields m u m :=
        Build.yields_ofResult.2 ⟨rfl, rfl⟩
      have hset : (modify fun m => { m with composition := some c } : ModelM Unit).Yields m ()
          { m with composition := some c } := Build.yields_modify.2 rfl
      have hafter : (Operation.setComposition c).after m =
          Model.completeComposition.after { m with composition := some c } := by
        rw [after, build, Model.setComposition, hget.after_bind, hcheck, hpass.after_bind,
          hset.after_bind]
      refine hafter ▸ .composed hcheck ?_
      rw [succeeds, build, Model.setComposition, hget.succeeds_bind, hcheck, hpass.succeeds_bind,
        hset.succeeds_bind]
    | error e =>
      have hafter : (Operation.setComposition c).after m = m := by
        rw [after, build, Model.setComposition, hget.after_bind, hcheck, Build.after_error_bind]
      refine hafter.symm ▸ .refused ?_
      rw [succeeds, build, Model.setComposition, hget.succeeds_bind, hcheck,
        Build.succeeds_error_bind]
  | completeComposition => exact .completed
  | expandDraws n => exact .expanded n

/-! ### Automata of a model -/

/-- Properties of automata that their operations keep are kept by the operations of the model. -/
theorem Effect.forall_automata {P : Automaton → Prop} (hP : ∀ a a', a.Leads a' → P a → P a')
    {m m' : Model} {op : Operation} (h : m.Effect op m') (hadd : ∀ a, op = .addAutomaton a → P a)
    (hm : ∀ a ∈ m.automata, P a) : ∀ a ∈ m'.automata, P a := by
  have hcomplete : ∀ m : Model,
      Build.Preserves (fun m => ∀ a ∈ m.automata, P a) m (completeComposition.after m) :=
    related_completeComposition fun _ _ _ _ _ _ _ hm => hm
  cases h with
  | declared _ hautomata _ => rwa [hautomata]
  | refused _ => exact hm
  | added _ h =>
    rw [(addAutomaton_ok h).2]
    intro b hb
    rcases List.mem_append.1 hb with hb | hb
    · exact hm b hb
    · exact List.mem_singleton.1 hb ▸ hadd _ rfl
  | removed x =>
    intro b hb
    obtain ⟨a, ha, rfl⟩ := List.mem_map.1 hb
    exact hP a _ (.of_operation (.removeAction x) a) (hm a ha)
  | composed _ _ => exact hcomplete _ hm
  | completed => exact hcomplete m hm
  | expanded n =>
    refine related_expandDraws (R := Build.Preserves fun m => ∀ a ∈ m.automata, P a) m
      (fun a ha a' ha' m' hm' b hb => ?_) (fun _ _ _ _ _ _ _ hm => hm) hm
    obtain ⟨b₀, hb₀, rfl⟩ := List.mem_map.1 hb
    split
    · exact hP a a' (Automaton.leads_expandDraws ha') (hm a ha)
    · exact hm' b₀ hb₀

/-- **The automata of a model that was built were built themselves.** -/
theorem Built.automata {m : Model} (h : m.Built) : ∀ a ∈ m.automata, a.Built := by
  induction h with
  | new name => simp
  | @operation m _ op hop ih =>
    refine (op.effect m).forall_automata (fun _ _ hleads ha => ha.leads hleads) ?_ ih
    rintro a rfl
    exact hop
  | change _ name op ih =>
    intro b hb
    obtain ⟨a, ha, rfl⟩ := List.mem_map.1 hb
    split
    · exact (ih a ha).operation op
    · exact ih a ha

end Model

end ChartNet
