import Mathlib
import ChartNet.Automaton

/-!
# Automata under construction

What the operations that build an automaton leave as it is: adding locations and setting the initial
one touch no edges, edges are added at the end, locations stay, and the name never changes.
-/

namespace ChartNet

/-- Elements that are kept once do not repeat. -/
theorem nodup_eraseDups {α : Type} [BEq α] [LawfulBEq α] (l : List α) : l.eraseDups.Nodup := by
  induction hn : l.length using Nat.strong_induction_on generalizing l with
  | _ n ih =>
    cases l with
    | nil => simp
    | cons a as =>
      rw [List.eraseDups_cons, List.nodup_cons, List.mem_eraseDups]
      refine ⟨by simp, ih _ ?_ _ rfl⟩
      have := List.length_filter_le (fun b => !b == a) as
      simp only [List.length_cons] at hn
      omega

namespace Automaton

/-- Adding locations changes nothing but the locations. -/
theorem addLocations_eq (a : Automaton) (locations : List String) :
    a.addLocations locations = { a with locations := (a.addLocations locations).locations } := by
  unfold addLocations
  induction locations generalizing a with
  | nil => rfl
  | cons l ls ih =>
    rw [List.foldl_cons, ih]
    rfl

/-- Adding edges adds them at the end, and changes nothing else but the locations. -/
theorem addEdges_eq (a : Automaton) (edges : List Edge) :
    a.addEdges edges =
      { a with locations := (a.addEdges edges).locations, edges := a.edges ++ edges } := by
  unfold addEdges
  induction edges generalizing a with
  | nil => simp
  | cons e es ih =>
    rw [List.foldl_cons, ih, addEdge, addLocations_eq]
    simp

variable (a : Automaton)

@[simp] theorem edges_addLocations (locations : List String) :
    (a.addLocations locations).edges = a.edges := by
  rw [addLocations_eq]

@[simp] theorem name_addLocations (locations : List String) :
    (a.addLocations locations).name = a.name := by
  rw [addLocations_eq]

@[simp] theorem edges_addEdges (edges : List Edge) :
    (a.addEdges edges).edges = a.edges ++ edges := by
  rw [addEdges_eq]

@[simp] theorem name_addEdges (edges : List Edge) : (a.addEdges edges).name = a.name := by
  rw [addEdges_eq]

@[simp] theorem initial_addEdges (edges : List Edge) :
    (a.addEdges edges).initial = a.initial := by
  rw [addEdges_eq]

@[simp] theorem vars_addEdges (edges : List Edge) : (a.addEdges edges).vars = a.vars := by
  rw [addEdges_eq]

@[simp] theorem vars_addLocations (locations : List String) :
    (a.addLocations locations).vars = a.vars := by
  rw [addLocations_eq]

@[simp] theorem vars_addLocation (l : String) : (a.addLocation l).vars = a.vars := rfl

@[simp] theorem vars_setInitial (l : String) : (a.setInitial l).vars = a.vars := rfl

@[simp] theorem edges_addLocation (l : String) : (a.addLocation l).edges = a.edges := rfl

@[simp] theorem name_addLocation (l : String) : (a.addLocation l).name = a.name := rfl

@[simp] theorem edges_setInitial (l : String) : (a.setInitial l).edges = a.edges := rfl

@[simp] theorem name_setInitial (l : String) : (a.setInitial l).name = a.name := rfl

@[simp] theorem initial_setInitial (l : String) : (a.setInitial l).initial = some l := rfl

variable {a}

/-- A variable is added at the end if its name is new. -/
theorem addVariable_eq_ok {a' : Automaton} {v : Variable} :
    a.addVariable v = .ok a' ↔
      v.name ∉ a.vars.map (·.name) ∧ a' = { a with vars := a.vars ++ [v] } := by
  have hold : (a.getVariable? v.name).isSome ↔
    v.name ∈ a.vars.map (·.name) := by simp [getVariable?]
  simp only [addVariable, hold]
  split
  · rename_i hmem
    exact iff_of_false (by simp [failModel]) fun h => h.1 hmem
  · rename_i hnew
    rw [Except.ok.injEq, eq_comm, and_iff_right hnew]

/-! ### Locations -/

theorem mem_locations_addLocation {l l' : String} :
    l ∈ (a.addLocation l').locations ↔ l = l' ∨ l ∈ a.locations :=
  mem_insertLast

theorem mem_locations_addLocations {locations : List String} {l : String} :
    l ∈ (a.addLocations locations).locations ↔ l ∈ a.locations ∨ l ∈ locations := by
  unfold addLocations
  induction locations generalizing a with
  | nil => simp
  | cons l' ls ih =>
    rw [List.foldl_cons, ih, mem_locations_addLocation, List.mem_cons]
    tauto

/-- Adding edges keeps the locations. -/
theorem mem_locations_addEdges {edges : List Edge} {l : String} (h : l ∈ a.locations) :
    l ∈ (a.addEdges edges).locations := by
  unfold addEdges
  induction edges generalizing a with
  | nil => exact h
  | cons e es ih => exact ih (mem_locations_addLocations.2 (.inl h))

end Automaton

end ChartNet
