import ChartNet.Proofs.Macro.Clearance

/-!
# The contact with a wall

The term of an intersection for one wall says how far back from its goal a robot still touches the
wall. It is read as a function of the wall, the goal, the pose and the radius (`Macro.contactAt`,
`Macro.readIn_contact`): each quotient in it stands behind a test that keeps its denominator from
zero.

A goal is in the **contact zone** of a wall if its distances across from the line of the wall and
beyond both of its ends are below the radius. Outside of the zone the term is zero. Inside, it is
the least of up to three fractions, one of which is one, since no point is beyond both ends of a
wall (`Macro.beyond_neg_or`); so it is at most one (`Macro.contactAt_le_one`). Its sign is that of
the fraction for the end that the goal lies before: if the way back to the pose leads from there
along the wall, the quotient measures a way in the other direction and is negative
(`Macro.contactAt_pos_iff`).
-/

namespace ChartNet

namespace Macro

/-! ### Points and walls -/

section Walls

variable {K : Type*} [Field K] [LinearOrder K]

/-- A point is in the **contact zone** of a wall, for a radius `r`. -/
def InContact (sqrt : K → K) (r : K) (a b p : K × K) : Prop :=
  max (across sqrt a b p) (max (beyond sqrt a b p) (beyond sqrt b a p)) < r

/-- The goal lies before the end `a` of a wall, and the way back to the pose leads **along** the
wall, to the side of `b`. -/
def LeadsAlong (sqrt : K → K) (a b goal pose : K × K) : Prop :=
  0 ≤ beyond sqrt a b goal ∧ 0 < dot (b - a) (pose - goal)

/-- The fraction of the way back after which the robot has **left** the wall past its end `a`, as it
is computed: if the goal lies before that end, and one otherwise. -/
def pastEnd (sqrt : K → K) (r : K) (a b goal pose : K × K) : K :=
  if 0 ≤ beyond sqrt a b goal ∧ beyond sqrt a b goal < r then
    (span sqrt a b * r - dot (b - a) (a - goal)) / dot (a - b) (pose - goal)
  else 1

/-- The fraction of the way back that is the **contact** with a wall, as it is computed. -/
def contactAt (sqrt : K → K) (r : K) (a b goal pose : K × K) : K :=
  if r ≤ max (across sqrt a b goal) (max (beyond sqrt a b goal) (beyond sqrt b a goal)) then 0
  else min
    (if dot (b - a) (pose - goal) = 0 then 1
      else min (pastEnd sqrt r a b goal pose) (pastEnd sqrt r b a goal pose))
    (if cross (b - a) (pose - goal) = 0 ∨ r ≤ across sqrt a b goal then 1
      else (span sqrt a b * r - |cross (b - a) (a - goal)|) / |cross (b - a) (pose - goal)|)

variable {sqrt : K → K} {r : K} {a b goal pose : K × K}

theorem contactAt_of_not_inContact (h : ¬InContact sqrt r a b goal) :
    contactAt sqrt r a b goal pose = 0 :=
  if_pos (not_lt.1 h)

private theorem min_ne_zero {x y : K} (hx : x ≠ 0) (hy : y ≠ 0) : min x y ≠ 0 := by
  rcases min_choice x y with h | h <;> rwa [h]

variable [IsStrictOrderedRing K]

/-- **No point is beyond both ends** of a wall. -/
theorem beyond_neg_or (hsqrt : IsRoot sqrt) (hab : a ≠ b) (p : K × K) :
    beyond sqrt a b p < 0 ∨ beyond sqrt b a p < 0 := by
  have hl := dot_self_pos hab
  have hspan := span_pos hsqrt hab
  have hfar := dot_sub_far a b p
  rw [beyond, beyond, span_swap sqrt a b]
  by_contra! h
  have h₁ : 0 ≤ dot (b - a) (a - p) := by simpa using (le_div_iff₀ hspan).1 h.1
  have h₂ : 0 ≤ dot (a - b) (b - p) := by simpa using (le_div_iff₀ hspan).1 h.2
  linarith

/-- In the contact zone, the fraction for one end is positive unless the way leads along the
wall. -/
theorem pastEnd_pos_iff (hsqrt : IsRoot sqrt) (hab : a ≠ b) (hzone : beyond sqrt a b goal < r)
    (hway : dot (b - a) (pose - goal) ≠ 0) :
    pastEnd sqrt r a b goal pose ≠ 0 ∧
      (0 < pastEnd sqrt r a b goal pose ↔ ¬LeadsAlong sqrt a b goal pose) := by
  unfold pastEnd LeadsAlong
  by_cases hbefore : 0 ≤ beyond sqrt a b goal
  · have hrest : 0 < span sqrt a b * r - dot (b - a) (a - goal) := by
      have := (div_lt_iff₀ (span_pos hsqrt hab)).1 hzone
      linarith
    rw [if_pos ⟨hbefore, hzone⟩, dot_sub_swap a b (pose - goal)]
    refine ⟨div_ne_zero hrest.ne' (neg_ne_zero.2 hway), ?_⟩
    rw [div_pos_iff_of_pos_left hrest, neg_pos]
    simp only [hbefore, true_and, not_lt]
    exact hway.le_iff_lt.symm
  · rw [if_neg fun h => hbefore h.1]
    simp [hbefore]

theorem min_pastEnd_le_one (hsqrt : IsRoot sqrt) (hab : a ≠ b) :
    min (pastEnd sqrt r a b goal pose) (pastEnd sqrt r b a goal pose) ≤ 1 := by
  rcases beyond_neg_or hsqrt hab goal with h | h
  · exact min_le_of_left_le (if_neg fun hin => hin.1.not_gt h).le
  · exact min_le_of_right_le (if_neg fun hin => hin.1.not_gt h).le

/-- **A contact is at most one**, whether it is in the contact zone or not. -/
theorem contactAt_le_one (hsqrt : IsRoot sqrt) (hab : a ≠ b) :
    contactAt sqrt r a b goal pose ≤ 1 := by
  unfold contactAt
  split
  · exact zero_le_one
  · refine min_le_of_left_le ?_
    split
    · exact le_rfl
    · exact min_pastEnd_le_one hsqrt hab

/-- **The sign of a contact.** In the contact zone it is positive unless the way leads along the
wall from before one of its ends, and then it is negative. -/
theorem contactAt_pos_iff (hsqrt : IsRoot sqrt) (hab : a ≠ b) (hzone : InContact sqrt r a b goal) :
    contactAt sqrt r a b goal pose ≠ 0 ∧
      (0 < contactAt sqrt r a b goal pose ↔
        ¬LeadsAlong sqrt a b goal pose ∧ ¬LeadsAlong sqrt b a goal pose) := by
  obtain ⟨hacross, hbeyond⟩ := max_lt_iff.1 hzone
  obtain ⟨hbeyondA, hbeyondB⟩ := max_lt_iff.1 hbeyond
  unfold contactAt
  rw [if_neg (not_le.2 hzone)]
  set along := if dot (b - a) (pose - goal) = 0 then 1
    else min (pastEnd sqrt r a b goal pose) (pastEnd sqrt r b a goal pose) with halong
  set aside := if cross (b - a) (pose - goal) = 0 ∨ r ≤ across sqrt a b goal then 1
    else (span sqrt a b * r - |cross (b - a) (a - goal)|) /
      |cross (b - a) (pose - goal)| with haside
  -- `aside` is positive in any case, so the sign is that of `along`
  have hasidePos : 0 < aside := by
    rw [haside]
    split
    · exact one_pos
    · rename_i hcross
      have hrest := (div_lt_iff₀ (span_pos hsqrt hab)).1 hacross
      exact div_pos (by linarith) (abs_pos.2 fun h => hcross (.inl h))
  have halongSign : along ≠ 0 ∧
      (0 < along ↔ ¬LeadsAlong sqrt a b goal pose ∧ ¬LeadsAlong sqrt b a goal pose) := by
    rw [halong]
    by_cases hway : dot (b - a) (pose - goal) = 0
    · have hway' : dot (a - b) (pose - goal) = 0 := by rw [dot_sub_swap, hway, neg_zero]
      simp [hway, hway', LeadsAlong]
    · have hway' : dot (a - b) (pose - goal) ≠ 0 := by
        rwa [dot_sub_swap, neg_ne_zero]
      obtain ⟨hneA, hposA⟩ := pastEnd_pos_iff hsqrt hab hbeyondA hway
      obtain ⟨hneB, hposB⟩ := pastEnd_pos_iff hsqrt hab.symm hbeyondB hway'
      rw [if_neg hway, lt_min_iff, hposA, hposB]
      exact ⟨min_ne_zero hneA hneB, Iff.rfl⟩
  refine ⟨min_ne_zero halongSign.1 hasidePos.ne', ?_⟩
  rw [lt_min_iff, and_iff_left hasidePos, halongSign.2]

end Walls

/-! ### The value of a contact -/

variable {K : Type*} [Field K] [LinearOrder K] {sqrt : K → K} {σ : String → K} {robot : String}

theorem standsFor_goal :
    (goal robot).StandsFor sqrt σ (pointAt σ ("robots." ++ robot ++ ".goal")) := by
  constructor
  · rw [goal, readIn_robotName (by simp : "." ++ "goal.x" = ".goal" ++ ".x"),
      ← String.append_assoc]
    rfl
  · rw [goal, readIn_robotName (by simp : "." ++ "goal.y" = ".goal" ++ ".y"),
      ← String.append_assoc]
    rfl

variable [IsStrictOrderedRing K]

/-- **A contact has a value**: every division in it is by a number that its guards keep from
zero. -/
theorem readIn_contact (hsqrt : IsRoot sqrt) (σ : String → K) (robot : String) {count i : Nat}
    (hwall : vertexAt σ i ≠ vertexAt σ ((i + 1) % count)) :
    (contact robot count i).readIn sqrt σ =
      some (.num (contactAt sqrt (σ ("robots." ++ robot ++ ".shape.radius")) (vertexAt σ i)
        (vertexAt σ ((i + 1) % count)) (pointAt σ ("robots." ++ robot ++ ".goal"))
        (pointAt σ ("robots." ++ robot ++ ".pose")))) := by
  have hpose : (pose robot).StandsFor sqrt σ _ := standsFor_pose
  have hgoal : (goal robot).StandsFor sqrt σ _ := standsFor_goal
  have hradius : (radius robot).readIn sqrt σ = some _ := readIn_radius
  have hs := standsFor_sight hsqrt hwall hgoal
  set r := σ ("robots." ++ robot ++ ".shape.radius")
  set p := pointAt σ ("robots." ++ robot ++ ".pose")
  set g := pointAt σ ("robots." ++ robot ++ ".goal")
  set a := vertexAt σ i
  set b := vertexAt σ ((i + 1) % count)
  set s := sight count i (goal robot)
  have hpath : Vec.StandsFor sqrt σ _ (p - g) := hpose.sub hgoal
  have hnorm : s.norm.readIn sqrt σ = some (.num (span sqrt b a)) := by
    rw [span_swap]
    exact hs.norm
  have hwithin {e : Expr} {x : K} (he : e.readIn sqrt σ = some (.num x)) :
      (Expr.and (atLeast e (.real 0)) (.binary .lt e (radius robot))).readIn sqrt σ =
        some (.truth (decide (0 ≤ x ∧ x < r))) :=
    Expr.readIn_and (readIn_atLeast he readIn_zero) (Expr.readIn_lt he hradius)
  have hperpendicular := Expr.readIn_eq (hs.ab.dot hpath) readIn_zero
  have hparallel := Expr.readIn_eq (hs.ab.cross hpath) readIn_zero
  have houtside := readIn_atLeast
    (readIn_maximum hs.across (readIn_maximum hs.beyondA hs.beyondB)) hradius
  -- Each quotient is read only where the tests around it hold.
  have hpastA (hway : dot (a - b) (p - g) ≠ 0) :
      Expr.readIn sqrt σ (.ite _ _ _) = some (.num (pastEnd sqrt r a b g p)) :=
    Expr.readIn_ite (hwithin hs.beyondA) (fun _ => readIn_quot
      (readIn_minus (readIn_times hs.norm hradius) (hs.ab.dot hs.pa)) (hs.ba.dot hpath) hway)
      fun _ => readIn_one
  have hpastB (hway : dot (b - a) (p - g) ≠ 0) :
      Expr.readIn sqrt σ (.ite _ _ _) = some (.num (pastEnd sqrt r b a g p)) :=
    Expr.readIn_ite (hwithin hs.beyondB) (fun _ => readIn_quot
      (readIn_minus (readIn_times hnorm hradius) (hs.ba.dot hs.pb)) (hs.ab.dot hpath) hway)
      fun _ => readIn_one
  have halong : Expr.readIn sqrt σ (.ite _ _ _) = _ :=
    Expr.readIn_ite hperpendicular (fun _ => readIn_one) fun hway =>
      readIn_minimum (hpastA (by rwa [dot_sub_swap, neg_ne_zero])) (hpastB hway)
  have haside : Expr.readIn sqrt σ (.ite _ _ _) = _ :=
    Expr.readIn_ite (Expr.readIn_or hparallel (readIn_atLeast hs.across hradius))
      (fun _ => readIn_one) fun hfree => readIn_quot
        (readIn_minus (readIn_times hs.norm hradius) (readIn_absolute (hs.ab.cross hs.pa)))
        (readIn_absolute (hs.ab.cross hpath)) (abs_ne_zero.2 fun h => hfree (.inl h))
  exact Expr.readIn_ite houtside (fun _ => readIn_zero) fun _ => readIn_minimum halong haside

end Macro

end ChartNet
