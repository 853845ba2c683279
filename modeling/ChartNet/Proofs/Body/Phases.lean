import ChartNet.Chart.Assign
import ChartNet.Proofs.Interpretation

/-!
# Phases of an assignment

What a chart assigns comes in two **phases**: the values are stored at some index, and the lengths
of arrays are set at the next one. Which assignments these are does not depend on the index, so
a step adds the same phases to an edge wherever it stands on it, and after all that is there already
(`Scope.perform_assign`).
-/

namespace ChartNet

/-- An assignment at another index. -/
def Assignment.numbered (r : Rank) (a : Assignment) : Assignment :=
  { a with index := r }

/-- Two **phases** of assignments, at an index and at the next one. -/
def phasesFrom (r : Rank) (phases : List Assignment × List Assignment) : List Assignment :=
  phases.1.map (·.numbered r) ++ phases.2.map (·.numbered r.next)

/-- The phases start at their index. -/
theorem le_index_of_mem_phasesFrom {r : Rank} {phases : List Assignment × List Assignment}
    {a : Assignment} (ha : a ∈ phasesFrom r phases) : r.le a.index := by
  rcases List.mem_append.1 ha with h | h
  · obtain ⟨b, -, rfl⟩ := List.mem_map.1 h
    exact Rank.le_refl r
  · obtain ⟨b, -, rfl⟩ := List.mem_map.1 h
    have hle := Rank.le_total r r.next
    simpa [Rank.not_next_le, Assignment.numbered] using hle

/-- The phases are performed one after the other, each as a whole. -/
theorem Interpretation.perform_phasesFrom (I : Interpretation) (r : Rank)
    (phases : List Assignment × List Assignment) (σ : I.Store) :
    I.perform (phasesFrom r phases) σ = I.together phases.2 (I.together phases.1 σ) := by
  have hphase : ∀ (s : Rank) (as : List Assignment) (σ : I.Store),
      I.perform (as.map (·.numbered s)) σ = I.together as σ := by
    intro s as σ
    rw [I.perform_of_index (r := s) (by simp [Assignment.numbered])]
    exact I.together_map (·.numbered s) (fun _ => rfl) (fun _ => rfl) as σ
  rw [phasesFrom, I.perform_append, hphase, hphase]
  intro a ha b hb
  obtain ⟨a, -, rfl⟩ := List.mem_map.1 ha
  obtain ⟨b, -, rfl⟩ := List.mem_map.1 hb
  exact Rank.not_next_le r

namespace Scope

variable (scope : Scope)

/-- A computation gives the same phases, or the same error, at every index. -/
private def HasPhases (f : Rank → Result (List Assignment)) : Prop :=
  ∃ phases : Result (List Assignment × List Assignment), ∀ r, f r = phases.map (phasesFrom r)

private theorem hasPhases_error (e : CompileError) : HasPhases fun _ => .error e :=
  ⟨.error e, fun _ => rfl⟩

private theorem hasPhases_mapIdx {α : Type} (a : Assignment) (xs : List α)
    (f : Nat → α → Assignment) :
    HasPhases fun r => .ok (a.numbered r :: xs.mapIdx fun i x => (f i x).numbered r.next) := by
  refine ⟨.ok ([a], xs.mapIdx f), fun r => ?_⟩
  have hmap : (xs.mapIdx fun i x => (f i x).numbered r.next) =
      (xs.mapIdx f).map (·.numbered r.next) := by
    rw [List.mapIdx_eq_iff]
    simp [Function.comp_def]
  simp [Except.map, phasesFrom, hmap]

private theorem assignArray_hasPhases (target : String) (shape : ArrayShape) (source : Source) :
    HasPhases (scope.assignArray target shape source) := by
  unfold assignArray
  cases source.meaning with
  | literal form value =>
    -- none of the parts depends on the index, so they are told apart before it is known
    simp only [bind, Except.bind, pure, Except.pure]
    cases source.fit shape false with
    | error e => exact hasPhases_error e
    | ok fitted =>
      simp only
      cases fitted.lengths shape with
      | error e => exact hasPhases_error e
      | ok lengths =>
        simp only
        cases source.fit shape true with
        | error e => exact hasPhases_error e
        | ok padded =>
          exact hasPhases_mapIdx { ref := .ident target, value := .array padded } lengths
            fun i el => { ref := .ident (lengthName target (i + 1)), value := el.toExpr }
  | plain e =>
    simp only
    cases e.withEvent scope.event with
    | ident name =>
      simp only
      cases scope.types name with
      | none => exact hasPhases_error _
      | some type =>
        cases type with
        | array s =>
          simp only
          split
          · exact hasPhases_mapIdx { ref := .ident target, value := .ident name } shape.sizes
              fun i _ =>
                { ref := .ident (lengthName target (i + 1))
                  value := .ident (lengthName name (i + 1)) }
          · exact hasPhases_error _
        | scalar s => exact hasPhases_error _
        | bounded base lower upper => exact hasPhases_error _
    | _ => exact hasPhases_error _

private theorem assignElement_hasPhases (location : String) (c : AccessChain) (shape : ArrayShape)
    (text : String) : HasPhases (scope.assignElement location c shape text) := by
  unfold assignElement
  simp only
  split
  · exact hasPhases_error _
  · split
    · exact hasPhases_error _
    · simp only [bind, Except.bind, pure, Except.pure]
      cases Source.parseFor scope.event text with
      | error e => exact hasPhases_error e
      | ok value =>
        exact hasPhases_mapIdx { ref := c.toExpr, value } c.indexes fun i position =>
          let length := AccessChain.dimensionLength c.root (i + 1) c.indexes
          { ref := length, value := .binary .max (.binary .add position (.int 1)) length }

private theorem assign_hasPhases (location text : String) :
    HasPhases (scope.assign location text) := by
  unfold assign
  simp only [bind, Except.bind, pure, Except.pure]
  cases Source.parseFor scope.event location with
  | error e => exact hasPhases_error e
  | ok target =>
    simp only
    cases target.chain? with
    | none => exact hasPhases_error _
    | some c =>
      simp only
      split
      · exact hasPhases_error _
      · exact scope.assignElement_hasPhases _ _ _ _
      · exact hasPhases_error _
      · cases Source.read text with
        | error e => exact hasPhases_error e
        | ok source => exact scope.assignArray_hasPhases _ _ _
      · cases Source.parseFor scope.event text with
        | error e => exact hasPhases_error e
        | ok value =>
          exact hasPhases_mapIdx { ref := target, value } ([] : List Unit) fun _ _ =>
            { ref := target, value }

/-- Whether something can be assigned does not depend on the index. -/
theorem discard_assign (location text : String) (r s : Rank) :
    (scope.assign location text r).map (fun _ => ()) =
      (scope.assign location text s).map (fun _ => ()) := by
  obtain ⟨phases, hphases⟩ := scope.assign_hasPhases location text
  rw [hphases, hphases]
  cases phases <;> rfl

/-- The assignments of a step that are added to others have **higher indexes** than all of them. -/
theorem not_le_of_assign {location text : String} {before added : List Assignment}
    (h : scope.assign location text (nextIndex before) = .ok added) :
    ∀ a ∈ before, ∀ b ∈ added, ¬ b.index.le a.index := by
  obtain ⟨phases, hphases⟩ := scope.assign_hasPhases location text
  rw [hphases] at h
  cases phases with
  | error e => simp [Except.map] at h
  | ok phases =>
    obtain rfl := Except.ok.inj h
    intro a ha b hb hle
    exact not_nextIndex_le ha (Rank.le_trans (le_index_of_mem_phasesFrom hb) hle)

/-- The assignments of a step that are added to others are **performed after them**, as if they were
counted from zero. -/
theorem perform_assign {location text : String} {before added : List Assignment}
    (h : scope.assign location text (nextIndex before) = .ok added) :
    ∃ alone, scope.assign location text .zero = .ok alone ∧ ∀ (I : Interpretation) (σ : I.Store),
      I.perform (before ++ added) σ = I.perform alone (I.perform before σ) := by
  have hafter := scope.not_le_of_assign h
  obtain ⟨phases, hphases⟩ := scope.assign_hasPhases location text
  rw [hphases] at h
  cases phases with
  | error e => simp [Except.map] at h
  | ok phases =>
    obtain rfl := Except.ok.inj h
    refine ⟨phasesFrom .zero phases, hphases .zero, fun I σ => ?_⟩
    rw [I.perform_append hafter, I.perform_phasesFrom, I.perform_phasesFrom]

end Scope

end ChartNet
