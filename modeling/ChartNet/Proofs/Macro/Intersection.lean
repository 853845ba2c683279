import ChartNet.Proofs.Macro.Contact

/-!
# The intersection with the boundary

The intersection of the way of a robot with the boundary is the greatest of the contacts with its
walls and of zero. Each contact has a value of at most one, so the maximum has one in the unit
interval (`Macro.expand_intersect_mem_unitInterval`): no expansion divides by zero, as long as
consecutive vertices are different points. The contact with a single wall is not always in that
interval. It can be negative where a robot passes along a wall (`Macro.expand_intersect_contacts`),
and the maximum then counts it as no contact.
-/

universe u

namespace ChartNet

namespace Macro

open Number (numberOf)

/-- **What a contact says.** The intersection with the boundaries becomes a nested maximum of one
term for each vertex, which ends in zero. The term of a wall between two different points has a
value of at most one. It is zero exactly outside of the contact zone; inside, it is positive exactly
if the way back from the goal does not lead along the wall from before one of its ends. -/
theorem expand_intersect_contacts (robot : String) {constants : Constants} {n : Nat} (hn : 1 < n)
    (hcount : ∃ kind x, constants.get? "boundaries.count" = some (.lit (.num kind x)) ∧
      numberOf x = n) :
    ∃ terms : List Expr,
      (Expr.binary .intersect (.ident robot) (.ident "boundaries")).expand constants =
          .ok (terms.foldr maximum (.real 0)) ∧
        terms.length = n ∧
        ∀ (K : Type u) [Field K] [LinearOrder K] [IsStrictOrderedRing K] (sqrt : K → K),
          IsRoot sqrt → ∀ (σ : String → K) (i : Nat) (term : Expr), terms[i]? = some term →
            let r := σ ("robots." ++ robot ++ ".shape.radius")
            let goal := pointAt σ ("robots." ++ robot ++ ".goal")
            let pose := pointAt σ ("robots." ++ robot ++ ".pose")
            let a := vertexAt σ i
            let b := vertexAt σ ((i + 1) % n)
            a ≠ b → ∃ v, term.readIn sqrt σ = some (.num v) ∧ v ≤ 1 ∧
              (v = 0 ↔ ¬InContact sqrt r a b goal) ∧
              (InContact sqrt r a b goal →
                (0 < v ↔ ¬LeadsAlong sqrt a b goal pose ∧ ¬LeadsAlong sqrt b a goal pose)) := by
  refine ⟨(List.range n).map (contact robot n), ?_, by simp, ?_⟩
  · have hboundaries : boundariesOf constants = .ok n := boundariesOf_eq_ok.2 ⟨hn, hcount⟩
    simp only [Expr.expand, nameOperand, hboundaries, List.foldr_map]
    rfl
  · intro K _ _ _ sqrt hsqrt σ i term hterm r goal pose a b hab
    obtain ⟨hi, rfl⟩ := List.getElem?_eq_some_iff.1 hterm
    rw [List.getElem_map, List.getElem_range]
    refine ⟨_, readIn_contact hsqrt σ robot hab, contactAt_le_one hsqrt hab, ⟨?_, ?_⟩, ?_⟩
    · exact fun hzero hzone => (contactAt_pos_iff hsqrt hab hzone).1 hzero
    · exact contactAt_of_not_inContact
    · exact fun hzone => (contactAt_pos_iff hsqrt hab hzone).2

/-- **A robot that grazes a wall.** Its goal lies before the end of the wall and in the contact
zone; on the way back to one pose it passes along the wall, and on the way back to another it moves
off. Only the second contact is positive. -/
theorem expand_intersect_contacts_of_passing :
    let constants : Constants := [("boundaries.count", .int 2)]
    let σ : ℝ → String → ℝ := fun x name =>
      if name ∈ ["boundaries.1.x", "robots.r.shape.radius"] then 1
      else if name = "robots.r.goal.x" then -1 / 2
      else if name = "robots.r.pose.x" then x else 0
    ∃ terms : List Expr,
      (Expr.binary .intersect (.ident "r") (.ident "boundaries")).expand constants =
          .ok (terms.foldr maximum (.real 0)) ∧
        ∃ term, terms[0]? = some term ∧
          InContact Real.sqrt 1 (0, 0) (1, 0) (-1 / 2, 0) ∧
          (∃ v, term.readIn Real.sqrt (σ 2) = some (.num v) ∧ v < 0) ∧
          ∃ v, term.readIn Real.sqrt (σ (-2)) = some (.num v) ∧ 0 < v := by
  intro constants σ
  have htwo : numberOf 2 = (2 : ℕ) :=
    (Number.toNat?_eq_some.1 (by decide : Number.toNat? 2 = some 2)).2
  obtain ⟨terms, hexpand, hlength, hterms⟩ :=
    expand_intersect_contacts.{0} "r" (by decide : 1 < 2)
      ⟨.int, 2, (rfl : constants.get? "boundaries.count" = _), htwo⟩
  have hzero : "boundaries." ++ Number.natText 0 = "boundaries.0" := rfl
  have hone : "boundaries." ++ Number.natText 1 = "boundaries.1" := rfl
  have hstart (x : ℝ) : vertexAt (σ x) 0 = (0, 0) := by simp [vertexAt, pointAt, hzero, σ]
  have hend (x : ℝ) : vertexAt (σ x) 1 = (1, 0) := by simp [vertexAt, pointAt, hone, σ]
  have hgoal (x : ℝ) : pointAt (σ x) ("robots." ++ "r" ++ ".goal") = (-1 / 2, 0) := by
    simp [pointAt, σ]
  have hpose (x : ℝ) : pointAt (σ x) ("robots." ++ "r" ++ ".pose") = (x, 0) := by
    simp [pointAt, σ]
  have hradius (x : ℝ) : σ x ("robots." ++ "r" ++ ".shape.radius") = 1 := by simp [σ]
  have hzone : InContact Real.sqrt 1 ((0, 0) : ℝ × ℝ) (1, 0) (-1 / 2, 0) := by
    norm_num [InContact, across, beyond, span, dot, cross]
  have hread (x : ℝ) :=
    hterms ℝ Real.sqrt isRoot_realSqrt (σ x) 0 _ (List.getElem?_eq_getElem (by omega))
  simp only [hstart, hend, hgoal, hpose, hradius] at hread
  -- from the goal the pose at 2 lies along the wall, and the one at -2 away from it
  refine ⟨terms, hexpand, _, List.getElem?_eq_getElem (by omega), hzone, ?_, ?_⟩
  · obtain ⟨v, hv, -, hzero, hsign⟩ := hread 2 (by simp)
    have hpassing : LeadsAlong Real.sqrt ((0, 0) : ℝ × ℝ) (1, 0) (-1 / 2, 0) (2, 0) := by
      norm_num [LeadsAlong, beyond, span, dot]
    have hle : v ≤ 0 := not_lt.1 fun h => ((hsign hzone).1 h).1 hpassing
    exact ⟨v, hv, hle.lt_of_ne fun h => hzero.1 h hzone⟩
  · obtain ⟨v, hv, -, -, hsign⟩ := hread (-2) (by simp)
    refine ⟨v, hv, (hsign hzone).2 ⟨?_, ?_⟩⟩ <;> norm_num [LeadsAlong, beyond, span, dot]

/-- The greatest of terms that are at most one, and of zero, is between zero and one. -/
theorem readIn_overWalls {K : Type*} [Field K] [LinearOrder K] [IsStrictOrderedRing K]
    {sqrt : K → K} {σ : String → K} {count : Nat} {term : Nat → Expr}
    (hterm : ∀ i < count, ∃ v, (term i).readIn sqrt σ = some (.num v) ∧ v ≤ 1) :
    ∃ v, (overWalls count term maximum (.real 0)).readIn sqrt σ = some (.num v) ∧
      0 ≤ v ∧ v ≤ 1 := by
  have hmem : ∀ i ∈ List.range count, ∃ v, (term i).readIn sqrt σ = some (.num v) ∧ v ≤ 1 := by
    simpa using hterm
  unfold overWalls
  generalize List.range count = is at hmem ⊢
  induction is with
  | nil => exact ⟨0, readIn_zero, le_rfl, zero_le_one⟩
  | cons i is ih =>
    obtain ⟨hi, his⟩ := List.forall_mem_cons.1 hmem
    obtain ⟨v, hv, hv'⟩ := hi
    obtain ⟨w, hw, hpos, hw'⟩ := ih his
    exact ⟨max v w, readIn_maximum hv hw, le_max_of_le_right hpos, max_le hv' hw'⟩

/-- **The intersection macro is total and stays in the unit interval**: its expansion never divides
by zero if consecutive vertices of the boundary are different points. -/
theorem expand_intersect_mem_unitInterval (robot : String) {barrier : String}
    (hbarrier : barrier = "all" ∨ barrier = "boundaries" ∨ barrier = "obstacles")
    {constants : Constants} {n : Nat} (hn : 1 < n)
    (hcount : ∃ kind x, constants.get? "boundaries.count" = some (.lit (.num kind x)) ∧
      numberOf x = n) :
    ∃ e', (Expr.binary .intersect (.ident robot) (.ident barrier)).expand constants = .ok e' ∧
      ∀ (K : Type u) [Field K] [LinearOrder K] [IsStrictOrderedRing K] (sqrt : K → K),
        IsRoot sqrt → ∀ σ : String → K,
          (∀ i < n, vertexAt σ i ≠ vertexAt σ ((i + 1) % n)) →
          ∃ v, e'.readIn sqrt σ = some (.num v) ∧ 0 ≤ v ∧ v ≤ 1 := by
  have hboundaries : boundariesOf constants = .ok n := boundariesOf_eq_ok.2 ⟨hn, hcount⟩
  obtain ⟨b, hb⟩ := Barrier.exists_ofName_iff.2 hbarrier
  refine ⟨intersect robot b n, ?_, ?_⟩
  · exact Expr.expand_binary_eq_ok.2
      (.inl ⟨robot, barrier, b, n, rfl, rfl, hb, hboundaries, .inl ⟨rfl, rfl⟩⟩)
  · intro K _ _ _ sqrt hsqrt σ hwalls
    obtain ⟨v, hv, hpos, hle⟩ := readIn_overWalls fun i hi =>
      ⟨_, readIn_contact hsqrt σ robot (hwalls i hi), contactAt_le_one hsqrt (hwalls i hi)⟩
    cases b with
    | all =>
      exact ⟨max v 0, readIn_maximum hv readIn_zero, le_max_of_le_right le_rfl,
        max_le hle zero_le_one⟩
    | boundaries => exact ⟨v, hv, hpos, hle⟩
    | obstacles => exact ⟨0, readIn_zero, le_rfl, zero_le_one⟩

/-- A robot in a triangle. -/
theorem expand_intersect_mem_unitInterval_of_triangle :
    let constants : Constants := [("boundaries.count", .int 3)]
    let σ : String → ℝ := fun name =>
      if name ∈ ["boundaries.1.x", "boundaries.2.y", "robots.r.shape.radius"] then 1 else 0
    (∀ i < 3, vertexAt σ i ≠ vertexAt σ ((i + 1) % 3)) ∧
      ∃ e', (Expr.binary .intersect (.ident "r") (.ident "all")).expand constants = .ok e' ∧
        ∃ v, e'.readIn Real.sqrt σ = some (.num v) ∧ 0 ≤ v ∧ v ≤ 1 := by
  intro constants σ
  have hthree : numberOf 3 = (3 : ℕ) :=
    (Number.toNat?_eq_some.1 (by decide : Number.toNat? 3 = some 3)).2
  have hzero : "boundaries." ++ Number.natText 0 = "boundaries.0" := rfl
  have hone : "boundaries." ++ Number.natText 1 = "boundaries.1" := rfl
  have htwo : "boundaries." ++ Number.natText 2 = "boundaries.2" := rfl
  have h₀ : vertexAt σ 0 = (0, 0) := by simp [vertexAt, pointAt, hzero, σ]
  have h₁ : vertexAt σ 1 = (1, 0) := by simp [vertexAt, pointAt, hone, σ]
  have h₂ : vertexAt σ 2 = (0, 1) := by simp [vertexAt, pointAt, htwo, σ]
  have hwalls (i : Nat) (hi : i < 3) : vertexAt σ i ≠ vertexAt σ ((i + 1) % 3) := by
    interval_cases i <;> simp [h₀, h₁, h₂]
  obtain ⟨e', hexpand, hread⟩ := expand_intersect_mem_unitInterval.{0} "r"
    (.inl rfl : "all" = "all" ∨ _) (by decide : 1 < 3)
    ⟨.int, 3, (rfl : constants.get? "boundaries.count" = _), hthree⟩
  exact ⟨hwalls, e', hexpand, hread ℝ Real.sqrt isRoot_realSqrt σ hwalls⟩

end Macro

end ChartNet
