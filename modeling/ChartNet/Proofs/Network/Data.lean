import ChartNet.Proofs.Interpretation
import ChartNet.Proofs.Network.Run

/-!
# Data of networks

With an interpretation of expressions a network has **data**: the values of its global variables and
of those that automata have of their own, which hide global ones of the same name. In a step the
assignments of all moves happen by ascending index, and those of one index at the same time,
whichever automaton makes them. `Model.stages` are the memories through which a step goes; guards
and the values of assignments are read in these and in no others.

A variable changes only if some assignment of a move has it as its target (`eq_of_mem_stages`), and
if one automaton alone has assignments, it performs them as if there were no others (`view_after`).
The last section plays scripts of moves, so that runs on fixed networks can be computed.
-/

namespace ChartNet

/-- A **cell** of the memory of a network: a variable of an automaton, or a global one. -/
structure Cell where
  owner : Option String
  name : String
deriving DecidableEq

/-- The **memory** of a network: the value of every cell. -/
abbrev Interpretation.Memory (I : Interpretation) : Type := Cell → I.Value

/-- The assignments of some moves, each with the automaton that makes it. -/
def writes (moves : List Move) : List (String × Assignment) :=
  moves.flatMap fun v => v.destination.assignments.map (v.automaton, ·)

/-- A destination of a move **writes** a variable: an assignment has it as its target. -/
def Destination.Writes (d : Destination) (x : String) : Prop :=
  ∃ a ∈ d.assignments, a.ref.chain?.map (·.root) = some x

namespace Model

variable (m : Model) (I : Interpretation)

/-- Whether an automaton has a variable of its own. -/
def declares (automaton x : String) : Bool :=
  m.automata.any fun a => a.name == automaton && a.vars.any (·.name == x)

/-- The cell that a name means in an automaton. -/
def cell (automaton x : String) : Cell where
  owner := if m.declares automaton x then some automaton else none
  name := x

/-- What an automaton **sees** of the memory. -/
def view (automaton : String) (μ : I.Memory) : I.Store := fun x => μ (m.cell automaton x)

/-- Makes an assignment of an automaton, which reads the memory `before` and changes `after`. -/
def write (before after : I.Memory) (w : String × Assignment) : I.Memory :=
  match w.2.ref.chain? with
  | none => after
  | some c => Function.update after (m.cell w.1 c.root)
      (I.write (m.view I w.1 before) (m.view I w.1 after) w.2 c.root)

/-- Makes assignments together: all of them read the memory before any of them is made. -/
def together (ws : List (String × Assignment)) (μ : I.Memory) : I.Memory :=
  ws.foldl (m.write I μ) μ

/-- The indexes of assignments in ascending order, sorted so that they can be computed. -/
def ranks (ws : List (String × Assignment)) : List Rank :=
  (ws.map (·.2.index)).dedup.insertionSort fun r s => r.le s

/-- The memories through which assignments go, index by index. -/
def stagesAt (ws : List (String × Assignment)) : List Rank → I.Memory → List I.Memory
  | [], μ => [μ]
  | r :: rs, μ => μ :: stagesAt ws rs (m.together I (ws.filter (·.2.index = r)) μ)

/-- The **stages** of a step: its memories, from the one before it to the one after it. -/
def stages (moves : List Move) (μ : I.Memory) : List I.Memory :=
  m.stagesAt I (writes moves) (ranks (writes moves)) μ

/-- The memory **after** the moves of a step. -/
def after (moves : List Move) (μ : I.Memory) : I.Memory :=
  (m.stages I moves μ).getLastD μ

/-- The **dynamics** of a model under an interpretation. -/
@[reducible]
def dynamics : Dynamics where
  Data := I.Memory
  admits μ automaton e := (I.judge (m.view I automaton μ)).admits e.guard
  update μ moves μ' := μ' = m.after I moves μ

/-! ### What stays -/

variable {m I}

theorem mem_writes {moves : List Move} {w : String × Assignment} :
    w ∈ writes moves ↔ ∃ v ∈ moves, v.automaton = w.1 ∧ w.2 ∈ v.destination.assignments := by
  obtain ⟨x, a⟩ := w
  simp only [writes, List.mem_flatMap, List.mem_map, Prod.mk.injEq]
  constructor
  · rintro ⟨v, hv, a', ha', hx, rfl⟩
    exact ⟨v, hv, hx, ha'⟩
  · rintro ⟨v, hv, hx, ha⟩
    exact ⟨v, hv, a, ha, hx, rfl⟩

/-- An assignment changes only the variable of its target. -/
theorem write_of_ne {before after : I.Memory} {w : String × Assignment} {p : Cell}
    (h : w.2.ref.chain?.map (·.root) ≠ some p.name) : m.write I before after w p = after p := by
  unfold write
  cases hc : w.2.ref.chain? with
  | none => rfl
  | some c =>
    have hne : p ≠ m.cell w.1 c.root := by
      rintro rfl
      exact h (by simp [hc, cell])
    exact Function.update_of_ne hne _ _

theorem together_of_ne {ws : List (String × Assignment)} {p : Cell}
    (h : ∀ w ∈ ws, w.2.ref.chain?.map (·.root) ≠ some p.name) (μ : I.Memory) :
    m.together I ws μ p = μ p := by
  have hfold : ∀ after : I.Memory, ws.foldl (m.write I μ) after p = after p := by
    induction ws with
    | nil => simp
    | cons w ws ih =>
      rw [List.forall_mem_cons] at h
      intro after
      rw [List.foldl_cons, ih h.2, write_of_ne h.1]
  exact hfold μ

/-- **A variable that no move writes stays the same at all stages of a step.** -/
theorem eq_of_mem_stages {moves : List Move} {p : Cell}
    (h : ∀ v ∈ moves, ¬ v.destination.Writes p.name) {μ s : I.Memory}
    (hs : s ∈ m.stages I moves μ) : s p = μ p := by
  have hwrites : ∀ w ∈ writes moves, w.2.ref.chain?.map (·.root) ≠ some p.name := by
    intro w hw heq
    obtain ⟨v, hv, -, ha⟩ := mem_writes.1 hw
    exact h v hv ⟨w.2, ha, heq⟩
  have hstages : ∀ (ranks : List Rank) (μ : I.Memory),
      ∀ s ∈ m.stagesAt I (writes moves) ranks μ, s p = μ p := by
    intro ranks
    induction ranks with
    | nil => simp [stagesAt]
    | cons r rs ih =>
      intro μ s hs
      rcases List.mem_cons.1 hs with rfl | hs
      · rfl
      · rw [ih _ s hs]
        exact together_of_ne (fun w hw => hwrites w (List.mem_of_mem_filter hw)) μ
  exact hstages _ μ s hs

theorem stages_ne_nil (moves : List Move) (μ : I.Memory) : m.stages I moves μ ≠ [] := by
  unfold stages
  cases ranks (writes moves) <;> simp [stagesAt]

/-- The memory after a step is its last stage. -/
theorem after_mem_stages (moves : List Move) (μ : I.Memory) :
    m.after I moves μ ∈ m.stages I moves μ := by
  rw [after, List.getLastD_eq_getLast?, List.getLast?_eq_some_getLast (stages_ne_nil moves μ)]
  exact List.getLast_mem _

/-! ### One automaton alone -/

/-- In an automaton different names mean different cells. -/
theorem cell_injective (automaton : String) : Function.Injective (m.cell automaton) :=
  fun _ _ h => congrArg Cell.name h

/-- An automaton sees its own assignment as one to what it sees. -/
theorem view_write (before after : I.Memory) (automaton : String) (a : Assignment) :
    m.view I automaton (m.write I before after (automaton, a)) =
      I.write (m.view I automaton before) (m.view I automaton after) a := by
  unfold write
  cases hc : a.ref.chain? with
  | none => simp [Interpretation.write, hc]
  | some c =>
    funext x
    by_cases hx : x = c.root
    · simp [view, hx]
    · have hcell : m.cell automaton x ≠ m.cell automaton c.root := fun h =>
        hx (cell_injective automaton h)
      simp [view, Function.update_of_ne hcell, Interpretation.write, hc, Function.update_of_ne hx]

theorem view_together (as : List Assignment) (automaton : String) (μ : I.Memory) :
    m.view I automaton (m.together I (as.map (automaton, ·)) μ) =
      I.together as (m.view I automaton μ) := by
  have hfold : ∀ after : I.Memory,
      m.view I automaton ((as.map (automaton, ·)).foldl (m.write I μ) after) =
        as.foldl (I.write (m.view I automaton μ)) (m.view I automaton after) := by
    induction as with
    | nil => simp
    | cons a as ih =>
      intro after
      rw [List.map_cons, List.foldl_cons, List.foldl_cons, ih, view_write]
  exact hfold μ

private theorem ranks_eq_ranksOf (as : List Assignment) (automaton : String) :
    ranks (as.map (automaton, ·)) = Interpretation.ranksOf as := by
  have : IsTrans Rank fun r s => r.le s := ⟨fun _ _ _ => Rank.le_trans⟩
  have : Std.Total fun r s : Rank => r.le s := ⟨fun r s => by simpa using Rank.le_total r s⟩
  rw [ranks, List.map_map]
  exact Interpretation.eq_mergeSort_of_perm (List.perm_insertionSort _ _)
    (List.pairwise_insertionSort _ _)

/-- **If one automaton alone has assignments, it performs them** on what it sees. -/
theorem view_after {moves : List Move} {automaton : String} {as : List Assignment}
    (h : writes moves = as.map (automaton, ·)) (μ : I.Memory) :
    m.view I automaton (m.after I moves μ) = I.perform as (m.view I automaton μ) := by
  have hstages : ∀ (ranks : List Rank) (μ μ₀ : I.Memory),
      m.view I automaton ((m.stagesAt I (as.map (automaton, ·)) ranks μ).getLastD μ₀) =
        ranks.foldl (fun σ r => I.together (as.filter (·.index = r)) σ)
          (m.view I automaton μ) := by
    intro ranks
    induction ranks with
    | nil => simp [stagesAt]
    | cons r rs ih =>
      intro μ μ₀
      rw [stagesAt, List.getLastD_cons, ih, List.foldl_cons, List.filter_map, view_together]
      rfl
  rw [after, stages, h, ranks_eq_ranksOf, hstages]
  rfl

/-! ### Scripts -/

/-- The first destination of an edge of an automaton, as a move. -/
def move? (m : Model) (automaton : String) (i : Nat) : Option Move := do
  let a ← m.automaton? automaton
  let edge ← a.edges[i]?
  let destination ← edge.destinations.head?
  return { automaton, edge, destination }

instance (σ : Snapshot (m.dynamics I)) (v : Move) : Decidable (m.CanMove σ v) :=
  decidable_of_iff ((∃ a ∈ m.automata, a.name = v.automaton ∧ v.edge ∈ a.edges) ∧
      v.edge.location = σ.location v.automaton ∧
      (I.judge (m.view I v.automaton σ.data)).admits v.edge.guard = true ∧
      v.destination ∈ v.edge.destinations)
    ⟨fun ⟨h₁, h₂, h₃, h₄⟩ => ⟨h₁, h₂, h₃, h₄⟩,
      fun h => ⟨h.edge, h.location, h.guard, h.destination⟩⟩

/-- The snapshot after a step by a synchronisation with some moves, if they can be made. -/
def sync? (c : Composition) (σ : Snapshot (m.dynamics I)) (moves : List Move) :
    Option (Snapshot (m.dynamics I)) :=
  if (∃ s ∈ c.syncs, moves.map (fun v => (v.automaton, v.edge.action)) =
      s.participants.map fun p => (p.1, some p.2)) ∧ ∀ v ∈ moves, m.CanMove σ v then
    some ⟨locationAfter moves σ.location, m.after I moves σ.data⟩
  else none

/-- **Plays** a script of synchronisations, each given by the automata that take part and the
numbers of their edges. -/
def play? (c : Composition) (σ : Snapshot (m.dynamics I)) :
    List (List (String × Nat)) → Option (List (List Move) × Snapshot (m.dynamics I))
  | [] => some ([], σ)
  | parts :: script => do
    let moves ← parts.mapM fun p => m.move? p.1 p.2
    let σ₁ ← sync? c σ moves
    let (trace, σ') ← play? c σ₁ script
    return (moves :: trace, σ')

theorem step_of_sync? {c : Composition} {σ σ' : Snapshot (m.dynamics I)} {moves : List Move}
    (h : sync? c σ moves = some σ') : m.Step c σ moves σ' := by
  unfold sync? at h
  split at h
  · rename_i hcan
    obtain ⟨⟨s, hs, hparticipants⟩, hmoves⟩ := hcan
    cases h
    exact .sync hs hparticipants hmoves rfl
  · cases h

/-- What is played are steps of the network. -/
theorem steps_of_play? {c : Composition} {script : List (List (String × Nat))}
    {σ σ' : Snapshot (m.dynamics I)} {trace : List (List Move)}
    (h : play? c σ script = some (trace, σ')) : m.Steps c σ trace σ' := by
  induction script generalizing σ trace with
  | nil =>
    obtain ⟨rfl, rfl⟩ : [] = trace ∧ σ = σ' := by simpa [play?] using h
    exact .refl σ
  | cons parts script ih =>
    simp only [play?, Option.bind_eq_bind, Option.bind_eq_some_iff] at h
    obtain ⟨moves, -, σ₁, hfirst, ⟨rest, _⟩, hrest, heq⟩ := h
    cases heq
    exact .head (step_of_sync? hfirst) (ih hrest)

/-- Where automata start. -/
def startLocation (m : Model) (automaton : String) : String :=
  ((m.automaton? automaton).bind (·.initial)).getD ""

/-- Whether a model can play a script from a memory, such that trace and memory at the end pass a
check. -/
def plays (m : Model) (I : Interpretation) (μ : I.Memory) (script : List (List (String × Nat)))
    (check : List (List Move) → I.Memory → Bool) : Bool :=
  match m.composition with
  | none => false
  | some c =>
    match play? c (⟨m.startLocation, μ⟩ : Snapshot (m.dynamics I)) script with
    | none => false
    | some (trace, σ) =>
      m.automata.all (fun a => a.initial = some (m.startLocation a.name)) && check trace σ.data

/-- A script that can be played is a **run**. -/
theorem run_of_plays {μ : I.Memory} {script : List (List (String × Nat))}
    {check : List (List Move) → I.Memory → Bool} (h : m.plays I μ script check) :
    ∃ (c : Composition) (trace : List (List Move)) (σ : Snapshot (m.dynamics I)),
      m.composition = some c ∧ m.Run c trace σ ∧ check trace σ.data := by
  unfold plays at h
  split at h
  · cases h
  · rename_i c hc
    split at h
    · cases h
    · rename_i trace σ hplay
      rw [Bool.and_eq_true] at h
      have hinitial : m.IsInitial (⟨m.startLocation, μ⟩ : Snapshot (m.dynamics I)) := by
        simpa [IsInitial] using h.1
      exact ⟨c, trace, σ, hc, (Run.start hinitial).append (steps_of_play? hplay), h.2⟩

end Model

end ChartNet
