import ChartNet.Proofs.Body.Arrays

/-!
# Assignments to elements

A chart assigns to an element of an array in two phases. The element is set first. Then the lengths
of the rows that its indexes pass through are widened, so that the element is in use; the indexes
of the length variables are the same expressions, which are read once more. They still have the
values that they had for the element unless one of them reads the array itself, and then the
lengths follow the new values (`Scope.perform_assign_element`).
-/

namespace ChartNet

open Interpretation
open Number (numberOf)

/-! ### Chains of targets -/

namespace AccessChain

variable (c : AccessChain)

/-- The length of a dimension is a length variable with the indexes before it. -/
theorem chain?_dimensionLength (m : Nat) :
    (dimensionLength c.root (m + 1) c.indexes).chain? =
      some ⟨lengthName c.root (m + 1), c.indexes.take m⟩ := by
  rw [dimensionLength, Expr.chain?_foldl_access (c := ⟨lengthName c.root (m + 1), []⟩) rfl]
  simp

@[simp] theorem length_widenLengths (r : Rank) :
    (c.widenLengths r).length = c.indexes.length := by
  simp [widenLengths]

/-- The dimensions are widened by assignments to **different variables**. -/
theorem widenLengths_pairwise (r : Rank) : (c.widenLengths r).Pairwise fun a b =>
    a.ref.chain?.map (·.root) ≠ b.ref.chain?.map (·.root) := by
  rw [List.pairwise_iff_getElem]
  intro i j hi hj hij h
  simp only [widenLengths, List.getElem_mapIdx, chain?_dimensionLength, Option.map_some,
    Option.some.injEq] at h
  have := lengthName_injective c.root h
  omega

end AccessChain

/-! ### The two phases -/

/-- The element is set before **all** lengths are widened. -/
theorem Interpretation.perform_cons_widenLengths (I : Interpretation) (c : AccessChain)
    (value : Expr) (r : Rank) (σ : I.Store) :
    I.perform ({ ref := c.toExpr, value, index := r } :: c.widenLengths r.next) σ =
      I.together (c.widenLengths r.next)
        (I.write σ σ { ref := c.toExpr, value, index := r }) := by
  have hindex : ∀ a ∈ c.widenLengths r.next, a.index = r.next := by
    intro a ha
    obtain ⟨m, -, rfl⟩ := List.mem_mapIdx.1 ha
    rfl
  rw [← List.singleton_append, I.perform_append, I.perform_of_index hindex,
    I.perform_of_index (r := r) (by simp)]
  · rfl
  · intro a ha b hb
    rw [hindex b hb, List.mem_singleton.1 ha]
    exact Rank.not_next_le r

namespace Interpretation.Arrays

variable {I : Interpretation} (A : I.Arrays) {c : AccessChain} {σ : I.Store} {path : List Int}

/-- An assignment to an access **sets the element** at its indexes. -/
theorem write_elementSet {a : Assignment} (hc : a.ref.chain? = some c)
    (hindexes : c.indexes.map (I.eval σ) = path.map A.number) {u : I.Value}
    (hu : A.at? (σ c.root) path = some u) :
    A.ElementSet σ (I.write σ σ a) c.root path (I.eval σ a.value) := by
  have hwrite : I.write σ σ a = Function.update σ c.root
      (I.replace (σ c.root) (path.map A.number) (I.eval σ a.value)) := by
    rw [← hindexes]
    simp only [write, hc]
    split
    · rename_i hempty
      simp [List.isEmpty_iff.1 hempty, A.replace_nil]
    · rfl
  rw [hwrite]
  refine ⟨?_, fun y hy => Function.update_of_ne hy _ _⟩
  rw [Function.update_self]
  exact A.replaced hu _

/-- The lengths are **widened** along the path that the indexes have. -/
theorem together_widenLengths (hindexes : c.indexes.map (I.eval σ) = path.map A.number)
    (hlengths : ∀ m < path.length, ∃ n,
      A.at? (σ (lengthName c.root (m + 1))) (path.take m) = some (A.number n)) (r : Rank) :
    A.Widened σ (I.together (c.widenLengths r) σ) c.root path := by
  have hlength : c.indexes.length = path.length := by
    simpa using congrArg List.length hindexes
  refine ⟨fun m hm => ?_, fun y hy => ?_⟩
  · obtain ⟨n, hn⟩ := hlengths m hm
    refine ⟨n, hn, ?_⟩
    have hm' : m < (c.widenLengths r).length := by simpa [hlength] using hm
    have hbefore : (c.indexes.take m).map (I.eval σ) = (path.take m).map A.number := by
      rw [List.map_take, hindexes, List.map_take]
    have hvalue : I.eval σ (c.widenLengths r)[m].value = A.number (max (path[m] + 1) n) := by
      have hindex : m < c.indexes.length := hlength ▸ hm
      have hposition : I.eval σ c.indexes[m] = A.number path[m] := by
        have := List.getElem_of_eq hindexes (i := m) (by simpa [hlength] using hm)
        simpa using this
      have hold : I.eval σ (AccessChain.dimensionLength c.root (m + 1) c.indexes) = A.number n :=
        A.eval_foldl_access hbefore (by rwa [A.eval_ident])
      simp only [AccessChain.widenLengths, List.getElem_mapIdx]
      exact A.eval_max (A.eval_add hposition (A.eval_one σ)) hold
    have hchain : (c.widenLengths r)[m].ref.chain? =
        some ⟨lengthName c.root (m + 1), c.indexes.take m⟩ := by
      simp [AccessChain.widenLengths, c.chain?_dimensionLength]
    rw [← hvalue, I.together_of_mem (c.widenLengths_pairwise r) (List.getElem_mem hm') hchain]
    exact (A.write_elementSet hchain hbefore hn).element
  · refine I.foldl_write_of_ne (fun a ha h => ?_) σ σ
    obtain ⟨m, hm, rfl⟩ := List.getElem_of_mem ha
    simp only [AccessChain.widenLengths, List.getElem_mapIdx, c.chain?_dimensionLength,
      Option.map_some, Option.some.injEq] at h
    exact hy m (by simpa [hlength] using hm) h.symm

end Interpretation.Arrays

namespace Scope

variable {scope : Scope} {location text : String} {r : Rank} {added : List Assignment}

/-- An assignment to an **element** of an array sets the element at the path of its indexes, and
widens the lengths along the path that the indexes have after that. If no index reads the array,
both paths are the one in the store before. -/
theorem perform_assign_element {c : AccessChain} (h : scope.assign location text r = .ok added)
    (hlocation : Source.parseFor scope.event location = .ok c.toExpr) (hindexes : c.indexes ≠ []) :
    ∃ shape value, scope.types c.root = some (.array shape) ∧
      shape.sizes.length = c.indexes.length ∧ Source.parseFor scope.event text = .ok value ∧
      ∀ (I : Interpretation) (A : I.Arrays) (σ : I.Store) (ps : List Int),
        let sizes := shape.sizes.map Size.count
        let written := I.perform (added.take 1) σ
        A.HoldsArray σ c.root sizes → Within sizes ps →
        c.indexes.map (I.eval σ) = ps.map A.number →
          A.ElementSet σ written c.root ps (I.eval σ value) ∧
          (∀ qs, Within sizes.dropLast qs.dropLast →
            c.indexes.map (I.eval written) = qs.map A.number →
            A.ElementAssigned σ (I.perform added σ) c.root ps qs (I.eval σ value)) ∧
          ((∀ i ∈ c.indexes, c.root ∉ i.occurrences) →
            A.ElementAssigned σ (I.perform added σ) c.root ps ps (I.eval σ value)) := by
  obtain ⟨shape, value, hroot, hshape, hvalue, rfl⟩ := assign_element h hlocation hindexes
  refine ⟨shape, value, hroot, hshape, hvalue, ?_⟩
  intro I A σ ps sizes written hσ hps hpath
  obtain ⟨u, hu, -⟩ := A.exists_at? hσ.elements hps
  have hwritten : written = I.write σ σ { ref := c.toExpr, value, index := r } :=
    I.perform_of_index (r := r) (by simp) σ
  have hperform := hwritten ▸ I.perform_cons_widenLengths c value r σ
  have hset : A.ElementSet σ written c.root ps (I.eval σ value) :=
    hwritten ▸ A.write_elementSet c.chain?_toExpr hpath hu
  have hassigned : ∀ qs, Within sizes.dropLast qs.dropLast →
      c.indexes.map (I.eval written) = qs.map A.number →
      A.ElementAssigned σ (I.perform ({ ref := c.toExpr, value, index := r } ::
        c.widenLengths r.next) σ) c.root ps qs (I.eval σ value) := by
    intro qs hqs hafter
    have hlength : qs.length = sizes.length := by
      have := congrArg List.length hafter
      simpa [sizes, hshape] using this.symm
    rw [hperform]
    refine hset.assigned (A.together_widenLengths hafter (fun m hm => ?_) r.next)
    rw [hset.others _ (lengthName_ne c.root (m + 1))]
    exact hσ.exists_length hlength hqs m hm
  refine ⟨hset, hassigned, fun hreads => ?_⟩
  -- an index that does not read the array has the same value after the element was set
  have hsame : c.indexes.map (I.eval written) = c.indexes.map (I.eval σ) := by
    refine List.map_congr_left fun i hi => A.eval_congr fun x hx => hset.others x ?_
    rintro rfl
    exact hreads i hi hx
  refine hassigned ps ?_ (hsame.trans hpath)
  rw [List.dropLast_eq_take, List.dropLast_eq_take, ← hps.length_eq]
  exact List.forall₂_take _ hps

/-- A robot notes a value in the row of a grid that it stands in. -/
theorem perform_assign_element_of_grid :
    let scope : Scope :=
      { types := fun x => if x = "grid" then some (.array ⟨.int, [.whole 2, .whole 3]⟩) else none }
    let c : AccessChain := ⟨"grid", [.ident "row", .int 1]⟩
    let σ : nested.Store := fun x =>
      if x = "grid" then .list [.list [.num 4, .num 0, .num 0], .list [.num 0, .num 0, .num 0]]
      else if x = "grid.d1_len" then .num 1
      else if x = "grid.d2_len" then .list [.num 1, .num 0]
      else if x = "row" then .num 1 else .num 0
    ∃ added, scope.assign "grid[row][1]" "7" .zero = .ok added ∧
      Source.parseFor none "grid[row][1]" = .ok c.toExpr ∧ c.indexes ≠ [] ∧
      nestedArrays.HoldsArray σ "grid" [2, 3] ∧ Within [2, 3] [1, 1] ∧
      c.indexes.map (nested.eval σ) = [1, 1].map nestedArrays.number ∧
      (∀ i ∈ c.indexes, "grid" ∉ i.occurrences) ∧
      nestedArrays.ElementAssigned σ (nested.perform added σ) "grid" [1, 1] [1, 1] (.num 7) := by
  intro scope c σ
  have hlocation : Source.parseFor none "grid[row][1]" = .ok c.toExpr :=
    Result.eq_ok_of_toOption (by decide +kernel)
  have hassigned : (scope.assign "grid[row][1]" "7" .zero).toOption.isSome := by decide +kernel
  obtain ⟨added, hadded⟩ := Option.isSome_iff_exists.1 hassigned
  have hadded := Result.eq_ok_of_toOption hadded
  obtain ⟨hone, hseven⟩ : numberOf 1 = 1 ∧ numberOf 7 = 7 := by decide +kernel
  have htext : Source.parseFor none "7" = .ok (.int 7) :=
    Result.eq_ok_of_toOption (by decide +kernel)
  have hpath : c.indexes.map (nested.eval σ) = [1, 1].map nestedArrays.number := by
    simp [c, σ, Datum.eval, Expr.int, nestedArrays, hone]
  have hreads : ∀ i ∈ c.indexes, "grid" ∉ i.occurrences := by
    simp [c, Expr.int, Expr.occurrences]
  have hwithin : Within [2, 3] [1, 1] := by simp [Within]
  have hrows : lengthName "grid" 1 = "grid.d1_len" := by decide +kernel
  have hcolumns : lengthName "grid" 2 = "grid.d2_len" := by decide +kernel
  -- the lengths of the rows are items of the second length variable
  have hσ : nestedArrays.HoldsArray σ "grid" [2, 3] := by
    refine ⟨fun p hp hlt => ?_, fun m hm => ?_⟩
    · interval_cases p <;> refine ⟨_, rfl, fun q hq hlt => ?_⟩ <;> interval_cases q <;>
        exact ⟨_, rfl, trivial⟩
    · obtain rfl | rfl : m = 0 ∨ m = 1 := by
        simp only [List.length_cons, List.length_nil] at hm
        omega
      · exact ⟨1, by simp [hrows, σ, nestedArrays]⟩
      · intro p hp hlt
        rw [hcolumns]
        interval_cases p
        · exact ⟨.num 1, rfl, 1, by simp [nestedArrays]⟩
        · exact ⟨.num 0, rfl, 0, by simp [nestedArrays]⟩
  obtain ⟨shape, value, hroot, -, hvalue, h⟩ :=
    perform_assign_element hadded hlocation (List.cons_ne_nil _ _)
  obtain rfl : ArrayShape.mk .int [.whole 2, .whole 3] = shape := by simpa [scope, c] using hroot
  obtain rfl : Expr.int 7 = value := Except.ok.inj (htext.symm.trans hvalue)
  have hnew := (h nested nestedArrays σ [1, 1] hσ hwithin hpath).2.2 hreads
  simp only [Expr.int, Datum.eval, hseven] at hnew
  exact ⟨added, hadded, hlocation, List.cons_ne_nil _ _, hσ, hwithin, hpath, hreads, hnew⟩

/-- If the index **reads the array**, the length is widened along the new value. -/
theorem perform_assign_element_of_reread :
    let scope : Scope :=
      { types := fun x => if x = "a" then some (.array ⟨.int, [.whole 3]⟩) else none }
    let c : AccessChain := ⟨"a", [.access (.ident "a") (.int 0)]⟩
    let σ : nested.Store := fun x =>
      if x = "a" then .list [.num 0, .num 0, .num 0] else .num 0
    ∃ added, scope.assign "a[a[0]]" "5" .zero = .ok added ∧
      Source.parseFor none "a[a[0]]" = .ok c.toExpr ∧
      nestedArrays.HoldsArray σ "a" [3] ∧ Within [3] [0] ∧
      c.indexes.map (nested.eval σ) = [0].map nestedArrays.number ∧
      nested.perform added σ "a.d1_len" = .num 6 ∧
      ¬ nestedArrays.ElementAssigned σ (nested.perform added σ) "a" [0] [0] (.num 5) := by
  intro scope c σ
  let added : List Assignment :=
    { ref := c.toExpr, value := .int 5, index := .zero } :: c.widenLengths Rank.zero.next
  have hassigned : scope.assign "a[a[0]]" "5" .zero = .ok added :=
    Result.eq_ok_of_toOption (by decide +kernel)
  have hlocation : Source.parseFor none "a[a[0]]" = .ok c.toExpr :=
    Result.eq_ok_of_toOption (by decide +kernel)
  have hlength : lengthName "a" 1 = "a.d1_len" := by decide +kernel
  obtain ⟨hzero, hone, hfive⟩ : numberOf 0 = 0 ∧ numberOf 1 = 1 ∧ numberOf 5 = 5 := by
    decide +kernel
  have hσ : nestedArrays.HoldsArray σ "a" [3] := by
    refine ⟨fun p hp hlt => ?_, fun m hm => ?_⟩
    · interval_cases p <;> exact ⟨_, rfl, trivial⟩
    · obtain rfl : m = 0 := by simpa using hm
      exact ⟨0, by simp [hlength, σ, nestedArrays]⟩
  have hpath : c.indexes.map (nested.eval σ) = [0].map nestedArrays.number := by
    simp [c, σ, Expr.access, Expr.int, Datum.eval, Datum.combine, Datum.index?, Datum.item, hzero,
      nestedArrays]
  -- the length is widened after the write, so `a[0]` is read again and is 5 by then
  have hperform : nested.perform added σ "a.d1_len" = .num 6 := by
    have hwritten : nested.write σ σ { ref := c.toExpr, value := .int 5, index := .zero } =
        Function.update σ "a" (.list [.num 5, .num 0, .num 0]) := by
      rw [write, c.chain?_toExpr]
      simp [c, σ, Expr.access, Expr.int, Datum.eval, Datum.combine, Datum.index?, Datum.item,
        Datum.replace, hzero, hfive]
    rw [nested.perform_cons_widenLengths c (.int 5) .zero σ, hwritten]
    simp [together, write, c, σ, AccessChain.widenLengths, AccessChain.dimensionLength, hlength,
      Expr.chain?, Expr.access, Expr.int, Datum.eval, Datum.combine, Datum.index?, Datum.item,
      hzero, hone]
    norm_num
  refine ⟨added, hassigned, hlocation, hσ, by simp [Within], hpath, hperform, fun h => ?_⟩
  obtain ⟨n, hn, hnew⟩ := h.lengths 0 (by simp)
  have hold : n = 0 := by simpa [hlength, σ, nestedArrays, eq_comm] using hn
  have hwidened := hnew.here
  simp [hlength, hperform, nestedArrays, hold] at hwidened

end Scope

end ChartNet
