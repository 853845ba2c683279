import ChartNet.Assoc
import ChartNet.Json.Basic
import Mathlib.Data.List.Nodup
import Mathlib.Tactic.SplitIfs

/-!
# Lists of values with distinct names

Where names are distinct, a list of named values is a map: a name has the value that stands with it,
whatever the order. The participants of a synchronisation and the members of an object in JSON are
such lists.
-/

namespace ChartNet

variable {α : Type} {pairs others : List (String × α)} {name : String} {value : α}

/-- Among distinct names, each has the value that stands with it. -/
theorem assocGet?_eq_some (h : (pairs.map (·.1)).Nodup) :
    assocGet? pairs name = some value ↔ (name, value) ∈ pairs := by
  induction pairs with
  | nil => simp [assocGet?]
  | cons p ps ih =>
    rw [List.map_cons, List.nodup_cons] at h
    have hcons : assocGet? (p :: ps) name = if p.1 = name then some p.2 else assocGet? ps name := by
      by_cases hp : p.1 = name <;> simp [assocGet?, hp]
    rw [hcons, List.mem_cons]
    split_ifs with hp
    · subst hp
      have hnot : (p.1, value) ∉ ps := fun hmem => h.1 (List.mem_map.2 ⟨_, hmem, rfl⟩)
      simp [Prod.ext_iff, hnot, eq_comm]
    · rw [ih h.2]
      have hne : (name, value) ≠ p := fun heq => hp (heq ▸ rfl)
      simp [hne]

/-- The order of distinct names does not matter for their values. -/
theorem assocGet?_perm (h : pairs.Perm others) (hnodup : (pairs.map (·.1)).Nodup) (name : String) :
    assocGet? pairs name = assocGet? others name := by
  refine Option.ext fun value => ?_
  rw [assocGet?_eq_some hnodup, assocGet?_eq_some ((h.map _).nodup_iff.1 hnodup), h.mem_iff]

/-- Distinct names are kept as they are. -/
theorem assocOfList_of_nodup (h : (pairs.map (·.1)).Nodup) : assocOfList pairs = pairs := by
  suffices hfold : ∀ (rest before : List (String × α)), ((before ++ rest).map (·.1)).Nodup →
      rest.foldl (fun ps p => assocPut ps p.1 p.2) before = before ++ rest from hfold pairs [] h
  intro rest
  induction rest with
  | nil => simp
  | cons p ps ih =>
    intro before hnodup
    have hnew : p.1 ∉ before.map (·.1) := by
      rw [List.map_append, List.map_cons] at hnodup
      exact fun hmem => (List.nodup_append.1 hnodup).2.2 _ hmem _ List.mem_cons_self rfl
    have hput : assocPut before p.1 p.2 = before ++ [p] := by
      have hany : before.any (·.1 == p.1) = false := by
        rw [List.any_eq_false]
        exact fun q hq heq => hnew (eq_of_beq heq ▸ List.mem_map_of_mem hq)
      simp [assocPut, hany]
    rw [List.foldl_cons, hput, ih _ (by simpa using hnodup), List.append_assoc]
    rfl

namespace Json

variable {members : List (String × Json)} {name : String} {j : Json}

/-- The value of a name stands with it. -/
theorem mem_of_lookup (h : lookup name members = some j) : (name, j) ∈ members := by
  obtain ⟨m, hfind, rfl⟩ := Option.map_eq_some_iff.1 h
  obtain rfl : m.1 = name := by simpa using List.find?_some hfind
  exact List.mem_of_find?_eq_some hfind

/-- Among members with distinct names, each has its own value. -/
theorem lookup_eq_some (h : (members.map (·.1)).Nodup) :
    lookup name members = some j ↔ (name, j) ∈ members :=
  assocGet?_eq_some h

end Json

end ChartNet
