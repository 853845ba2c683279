import ChartNet.Proofs.Macro.Quantity

/-!
# The distance from the walls

Read as a quantity of an ordered field with square roots, the clearance that stands for one wall is
the distance of the robot's pose from the segment between two vertices, less the radius of the robot
(`Macro.readIn_clearance`). The argument is the usual one: twice the area over the segment is
constant along its line, so only the place along the line counts, and that is before, beside or
behind the segment.

The terms of a wall are written with the sight of it: how far a point lies across from its line, and
how far beyond each of its ends. These have values for any wall of some length
(`Macro.standsFor_sight`).
-/

universe u

namespace ChartNet

open Number (numberOf)

/-! ### The plane -/

section Plane

variable {K : Type*} [Field K]

/-- The **squared distance** of two points. -/
def sqDist (p q : K × K) : K :=
  (p.1 - q.1) ^ 2 + (p.2 - q.2) ^ 2

/-- The point at a fraction `t` of the **way** from one point to another. -/
def pointAlong (a b : K × K) (t : K) : K × K :=
  (a.1 + t * (b.1 - a.1), a.2 + t * (b.2 - a.2))

/-- The **inner product** of two vectors. -/
def dot (u v : K × K) : K := u.1 * v.1 + u.2 * v.2

/-- The **cross product** of two vectors: twice the area between them. -/
def cross (u v : K × K) : K := u.1 * v.2 - u.2 * v.1

/-- Seen from its other end, a segment has the opposite direction. -/
theorem dot_sub_swap (a b v : K × K) : dot (a - b) v = -dot (b - a) v := by
  simp only [dot, Prod.fst_sub, Prod.snd_sub]
  ring

/-- What lies beyond the far end of a segment, seen from its start. -/
theorem dot_sub_far (a b p : K × K) :
    dot (a - b) (b - p) = -dot (b - a) (b - a) - dot (b - a) (a - p) := by
  simp only [dot, Prod.fst_sub, Prod.snd_sub]
  ring

variable [LinearOrder K]

/-- How far the foot of the perpendicular lies beyond the ends of a segment of squared length `l`:
the inner product of the direction of the segment with the vector to its start is `m`. -/
private def overshoot (l m : K) : K :=
  max (max m (-l - m)) 0

variable [IsStrictOrderedRing K]

/-- Over the unit interval, `(m + t * l) ^ 2` is least at the foot of the perpendicular or at the
end of the interval that is next to it. -/
private theorem isLeast_overshoot {l m : K} (hl : 0 < l) :
    IsLeast ((fun t => (m + t * l) ^ 2) '' Set.Icc 0 1) (overshoot l m ^ 2) := by
  unfold overshoot
  -- the point comes before the segment, behind it, or has its foot on it
  rcases le_or_gt 0 m with hbefore | hm
  · have hmax : max (max m (-l - m)) 0 = m := by
      rw [max_eq_left (by linarith : -l - m ≤ m), max_eq_left hbefore]
    rw [hmax]
    refine ⟨⟨0, by simp, by ring⟩, ?_⟩
    rintro _ ⟨t, ⟨ht, -⟩, rfl⟩
    have : 0 ≤ t * l := mul_nonneg ht hl.le
    exact pow_le_pow_left₀ hbefore (by linarith) 2
  rcases le_or_gt (m + l) 0 with hbehind | hl'
  · have hmax : max (max m (-l - m)) 0 = -(m + l) := by
      rw [max_eq_right (by linarith : m ≤ -l - m), max_eq_left (by linarith : 0 ≤ -l - m)]
      ring
    rw [hmax]
    refine ⟨⟨1, by simp, by ring⟩, ?_⟩
    rintro _ ⟨t, ⟨-, ht⟩, rfl⟩
    have : t * l ≤ l := mul_le_of_le_one_left hl.le ht
    show (-(m + l)) ^ 2 ≤ (m + t * l) ^ 2
    rw [← neg_sq (m + t * l)]
    exact pow_le_pow_left₀ (by linarith) (by linarith) 2
  · have hmax : max (max m (-l - m)) 0 = 0 :=
      max_eq_right (max_le hm.le (by linarith))
    rw [hmax]
    refine ⟨⟨-m / l, ⟨(div_pos (neg_pos.2 hm) hl).le, ?_⟩, ?_⟩, ?_⟩
    · rw [div_le_one hl]
      linarith
    · field_simp
      ring
    · rintro _ ⟨t, -, rfl⟩
      simpa using sq_nonneg (m + t * l)

private theorem overshoot_div {l m n : K} (hn : 0 < n) :
    overshoot l m / n = max (max (m / n) ((-l - m) / n)) 0 := by
  rw [overshoot, ← max_div_div_right hn.le, ← max_div_div_right hn.le, zero_div]

/-- A segment between two different points has a **length**. -/
theorem dot_self_pos {a b : K × K} (hab : a ≠ b) : 0 < dot (b - a) (b - a) := by
  have hne : b.1 - a.1 ≠ 0 ∨ b.2 - a.2 ≠ 0 := by
    by_contra! h
    exact hab (Prod.ext (sub_eq_zero.1 h.1).symm (sub_eq_zero.1 h.2).symm)
  rcases hne with h | h
  · exact add_pos_of_pos_of_nonneg (mul_self_pos.2 h) (mul_self_nonneg _)
  · exact add_pos_of_nonneg_of_pos (mul_self_nonneg _) (mul_self_pos.2 h)

/-- **The distance of a point from a segment**: the square of the area over the segment and the
point and of the overshoot, over the squared length of the segment. -/
theorem isLeast_sqDist {p a b : K × K} (hab : a ≠ b) :
    let l := dot (b - a) (b - a)
    IsLeast ((fun t => sqDist p (pointAlong a b t)) '' Set.Icc 0 1)
      ((overshoot l (dot (b - a) (a - p)) ^ 2 + cross (b - a) (a - p) ^ 2) / l) := by
  intro l
  set m := dot (b - a) (a - p) with hm
  set c := cross (b - a) (a - p) with hc
  have hl : 0 < l := dot_self_pos hab
  -- the distance splits into a part along the segment and one across it, which stays the same
  have hsquare (t : K) : sqDist p (pointAlong a b t) = ((m + t * l) ^ 2 + c ^ 2) / l := by
    rw [eq_div_iff hl.ne']
    simp only [sqDist, pointAlong, l, hm, hc, dot, cross, Prod.fst_sub, Prod.snd_sub]
    ring
  obtain ⟨⟨t, ht, hfoot⟩, hleast⟩ := isLeast_overshoot (m := m) hl
  refine ⟨⟨t, ht, ?_⟩, ?_⟩
  · simp only [hsquare, ← hfoot]
  · rintro _ ⟨t, ht, rfl⟩
    have := hleast ⟨t, ht, rfl⟩
    simp only [hsquare]
    gcongr

end Plane

namespace Macro

/-! ### Walls -/

section Walls

variable {K : Type*} [Field K] [LinearOrder K]

/-- **Square roots** of the numbers that are not negative. -/
def IsRoot (sqrt : K → K) : Prop :=
  ∀ x, 0 ≤ x → 0 ≤ sqrt x ∧ sqrt x * sqrt x = x

theorem isRoot_realSqrt : IsRoot Real.sqrt :=
  fun x hx => ⟨Real.sqrt_nonneg x, Real.mul_self_sqrt hx⟩

/-- The **length** of the wall from `a` to `b`. -/
def span (sqrt : K → K) (a b : K × K) : K := sqrt (dot (b - a) (b - a))

/-- How far **beyond** the end `a` of a wall a point is, along its line; negative on the side
of `b`. -/
def beyond (sqrt : K → K) (a b p : K × K) : K := dot (b - a) (a - p) / span sqrt a b

/-- How far **across** from the line of a wall a point is. -/
def across (sqrt : K → K) (a b p : K × K) : K := |cross (b - a) (a - p)| / span sqrt a b

variable {sqrt : K → K} {a b : K × K}

omit [LinearOrder K] in
theorem span_swap (sqrt : K → K) (a b : K × K) : span sqrt b a = span sqrt a b := by
  have hself : dot (a - b) (a - b) = dot (b - a) (b - a) := by
    simp only [dot, Prod.fst_sub, Prod.snd_sub]
    ring
  rw [span, hself, span]

variable [IsStrictOrderedRing K]

/-- Lengths are the roots of what they are computed from. -/
theorem span_mul_self (hsqrt : IsRoot sqrt) (hab : a ≠ b) :
    span sqrt a b * span sqrt a b = dot (b - a) (b - a) :=
  (hsqrt _ (dot_self_pos hab).le).2

theorem span_pos (hsqrt : IsRoot sqrt) (hab : a ≠ b) : 0 < span sqrt a b := by
  refine (hsqrt _ (dot_self_pos hab).le).1.lt_of_ne fun h => (dot_self_pos hab).ne ?_
  rw [← span_mul_self hsqrt hab, span, ← h, zero_mul]

end Walls

/-! ### Reading vectors and walls -/

section Values

variable {K : Type*} [Field K] [LinearOrder K] {sqrt : K → K} {σ : String → K}

/-- A vector of expressions **stands for** a vector. -/
structure Vec.StandsFor (sqrt : K → K) (σ : String → K) (v : Vec) (p : K × K) : Prop where
  x : v.x.readIn sqrt σ = some (.num p.1)
  y : v.y.readIn sqrt σ = some (.num p.2)

variable {v w : Vec} {p q : K × K}

theorem Vec.StandsFor.sub (hv : v.StandsFor sqrt σ p) (hw : w.StandsFor sqrt σ q) :
    (v.sub w).StandsFor sqrt σ (p - q) :=
  ⟨readIn_minus hv.x hw.x, readIn_minus hv.y hw.y⟩

theorem Vec.StandsFor.dot (hv : v.StandsFor sqrt σ p) (hw : w.StandsFor sqrt σ q) :
    (v.dot w).readIn sqrt σ = some (.num (ChartNet.dot p q)) :=
  readIn_plus (readIn_times hv.x hw.x) (readIn_times hv.y hw.y)

theorem Vec.StandsFor.cross (hv : v.StandsFor sqrt σ p) (hw : w.StandsFor sqrt σ q) :
    (v.cross w).readIn sqrt σ = some (.num (ChartNet.cross p q)) :=
  readIn_minus (readIn_times hv.x hw.y) (readIn_times hv.y hw.x)

/-- The point whose coordinates a store has under a name. -/
def pointAt {K : Type*} (σ : String → K) (name : String) : K × K :=
  (σ (name ++ ".x"), σ (name ++ ".y"))

/-- A vertex of the boundary, as a store has it. -/
def vertexAt {K : Type*} (σ : String → K) (i : Nat) : K × K :=
  pointAt σ ("boundaries." ++ Number.natText i)

variable {robot : String}

theorem readIn_robotName {part rest : String} (h : "." ++ part = rest) :
    (robotName robot part).readIn sqrt σ = some (.num (σ ("robots." ++ robot ++ rest))) := by
  simp only [robotName, Expr.readIn, ← h, String.append_assoc]

theorem readIn_radius :
    (radius robot).readIn sqrt σ = some (.num (σ ("robots." ++ robot ++ ".shape.radius"))) :=
  readIn_robotName (by simp)

theorem standsFor_pose :
    (pose robot).StandsFor sqrt σ (pointAt σ ("robots." ++ robot ++ ".pose")) := by
  constructor
  · rw [pose, readIn_robotName (by simp : "." ++ "pose.x" = ".pose" ++ ".x"),
      ← String.append_assoc]
    rfl
  · rw [pose, readIn_robotName (by simp : "." ++ "pose.y" = ".pose" ++ ".y"),
      ← String.append_assoc]
    rfl

theorem standsFor_vertex (i : Nat) : (vertex i).StandsFor sqrt σ (vertexAt σ i) :=
  ⟨rfl, rfl⟩

/-- The expressions for the **sight** of a wall stand for a wall and a point. -/
structure Sight.StandsFor (sqrt : K → K) (σ : String → K) (s : Sight) (a b p : K × K) : Prop where
  ab : s.ab.StandsFor sqrt σ (b - a)
  ba : s.ba.StandsFor sqrt σ (a - b)
  pa : s.pa.StandsFor sqrt σ (a - p)
  pb : s.pb.StandsFor sqrt σ (b - p)
  norm : s.norm.readIn sqrt σ = some (.num (span sqrt a b))
  across : s.across.readIn sqrt σ = some (.num (Macro.across sqrt a b p))
  beyondA : s.beyondA.readIn sqrt σ = some (.num (beyond sqrt a b p))
  beyondB : s.beyondB.readIn sqrt σ = some (.num (beyond sqrt b a p))

variable [IsStrictOrderedRing K]

/-- Walls of some length are seen without a division by zero. -/
theorem standsFor_sight (hsqrt : IsRoot sqrt) {count i : Nat}
    (hwall : vertexAt σ i ≠ vertexAt σ ((i + 1) % count)) {point : Vec}
    (hpoint : point.StandsFor sqrt σ p) :
    (sight count i point).StandsFor sqrt σ (vertexAt σ i) (vertexAt σ ((i + 1) % count)) p := by
  have hstart : (vertex i).StandsFor sqrt σ _ := standsFor_vertex i
  have hend : (vertex ((i + 1) % count)).StandsFor sqrt σ _ := standsFor_vertex _
  have hspan := (span_pos hsqrt hwall).ne'
  have hab := hend.sub hstart
  have hba := hstart.sub hend
  have hpa := hstart.sub hpoint
  have hpb := hend.sub hpoint
  have hnorm := readIn_norm2d hab.x hab.y
  refine ⟨hab, hba, hpa, hpb, hnorm, readIn_quot (readIn_absolute (hab.cross hpa)) hnorm hspan,
    readIn_quot (hab.dot hpa) hnorm hspan, ?_⟩
  rw [beyond, span_swap]
  exact readIn_quot (hba.dot hpb) hnorm hspan

/-! ### The clearance of one wall -/

/-- **The clearance is the distance of the pose from the wall**, less the radius. -/
theorem readIn_clearance (hsqrt : IsRoot sqrt) (σ : String → K) (robot : String) {count i : Nat}
    (hwall : vertexAt σ i ≠ vertexAt σ ((i + 1) % count)) :
    ∃ d, (clearance robot count i).readIn sqrt σ =
        some (.num (d - σ ("robots." ++ robot ++ ".shape.radius"))) ∧
      0 ≤ d ∧
      IsLeast ((fun t => sqDist (pointAt σ ("robots." ++ robot ++ ".pose"))
        (pointAlong (vertexAt σ i) (vertexAt σ ((i + 1) % count)) t)) '' Set.Icc 0 1) (d * d) := by
  have hpose : (pose robot).StandsFor sqrt σ _ := standsFor_pose
  have hs := standsFor_sight hsqrt hwall hpose
  set p := pointAt σ ("robots." ++ robot ++ ".pose")
  set a := vertexAt σ i
  set b := vertexAt σ ((i + 1) % count)
  have hspan := span_pos hsqrt hwall
  have hleast := isLeast_sqDist (p := p) hwall
  set m := dot (b - a) (a - p) with hm
  set c := cross (b - a) (a - p) with hc
  -- The overshoot at the far end is measured from there, and backwards.
  have hovershoot : max (max (beyond sqrt a b p) (beyond sqrt b a p)) 0 =
      overshoot (dot (b - a) (b - a)) m / span sqrt a b := by
    rw [overshoot_div hspan, beyond, beyond, span_swap sqrt a b, dot_sub_far a b p]
  have hbeyond := readIn_maximum (readIn_maximum hs.beyondA hs.beyondB) readIn_zero
  rw [hovershoot] at hbeyond
  obtain ⟨hd, hdd⟩ := hsqrt _ (add_nonneg
    (mul_self_nonneg (overshoot (dot (b - a) (b - a)) m / span sqrt a b))
    (mul_self_nonneg (across sqrt a b p)))
  refine ⟨_, readIn_minus (readIn_norm2d hbeyond hs.across) readIn_radius, hd, ?_⟩
  rw [hdd, across, div_mul_div_comm, div_mul_div_comm, span_mul_self hsqrt hwall,
    abs_mul_abs_self, ← add_div, ← sq, ← sq]
  exact hleast

end Values

/-! ### The distance from the boundary -/

/-- **The distance macro computes the distance to each wall.** It becomes a nested minimum of one
term for each vertex, which ends in `true`; the term of a wall between two different points has a
value, which is the distance of the pose from that wall less the radius. It has no conditionals, so
nothing in it is divided by zero. -/
theorem expand_distance_boundaries (robot : String) {constants : Constants} {n : Nat} (hn : 1 < n)
    (hcount : ∃ kind x, constants.get? "boundaries.count" = some (.lit (.num kind x)) ∧
      numberOf x = n) :
    ∃ terms : List Expr,
      (Expr.binary .distance (.ident robot) (.ident "boundaries")).expand constants =
          .ok (terms.foldr minimum (.bool true)) ∧
        terms.length = n ∧
        ∀ (K : Type u) [Field K] [LinearOrder K] [IsStrictOrderedRing K] (sqrt : K → K),
          IsRoot sqrt → ∀ (σ : String → K) (i : Nat) (term : Expr), terms[i]? = some term →
            vertexAt σ i ≠ vertexAt σ ((i + 1) % n) →
            ∃ d, term.readIn sqrt σ = some (.num (d - σ ("robots." ++ robot ++ ".shape.radius"))) ∧
              0 ≤ d ∧
              IsLeast ((fun t => sqDist (pointAt σ ("robots." ++ robot ++ ".pose"))
                (pointAlong (vertexAt σ i) (vertexAt σ ((i + 1) % n)) t)) '' Set.Icc 0 1)
                  (d * d) := by
  refine ⟨(List.range n).map (clearance robot n), ?_, by simp, ?_⟩
  · have hboundaries : boundariesOf constants = .ok n := boundariesOf_eq_ok.2 ⟨hn, hcount⟩
    simp only [Expr.expand, nameOperand, hboundaries, List.foldr_map]
    rfl
  · intro K _ _ _ sqrt hsqrt σ i term hterm hwall
    obtain ⟨hi, rfl⟩ := List.getElem?_eq_some_iff.1 hterm
    rw [List.getElem_map, List.getElem_range]
    exact readIn_clearance hsqrt σ robot hwall

/-- A robot in the unit square, which has four walls. -/
theorem expand_distance_boundaries_of_square :
    let constants : Constants := [("boundaries.count", .int 4)]
    let σ : String → ℝ := fun name =>
      if name ∈ ["boundaries.1.x", "boundaries.2.x", "boundaries.2.y",
        "boundaries.3.y"] then 1 else 0
    ∃ terms : List Expr,
      (Expr.binary .distance (.ident "r") (.ident "boundaries")).expand constants =
          .ok (terms.foldr minimum (.bool true)) ∧
        terms.length = 4 ∧
        ∀ term ∈ terms, ∃ d,
          term.readIn Real.sqrt σ = some (.num (d - σ "robots.r.shape.radius")) ∧ 0 ≤ d := by
  intro constants σ
  have hfour : numberOf 4 = (4 : ℕ) :=
    (Number.toNat?_eq_some.1 (Number.toNat?_ofNat (by norm_num))).2
  obtain ⟨terms, hexpand, hlength, hterms⟩ :=
    expand_distance_boundaries "r" (by decide : 1 < 4)
      ⟨.int, 4, (rfl : constants.get? "boundaries.count" = _), hfour⟩
  have h₀ : vertexAt σ 0 = (0, 0) := by
    simp only [vertexAt, pointAt, σ]
    rw [if_neg (by decide), if_neg (by decide)]
  have h₁ : vertexAt σ 1 = (1, 0) := by
    simp only [vertexAt, pointAt, σ]
    rw [if_pos (by decide), if_neg (by decide)]
  have h₂ : vertexAt σ 2 = (1, 1) := by
    simp only [vertexAt, pointAt, σ]
    rw [if_pos (by decide), if_pos (by decide)]
  have h₃ : vertexAt σ 3 = (0, 1) := by
    simp only [vertexAt, pointAt, σ]
    rw [if_neg (by decide), if_pos (by decide)]
  have hwall (i : Nat) (hi : i < 4) : vertexAt σ i ≠ vertexAt σ ((i + 1) % 4) := by
    interval_cases i <;> simp [h₀, h₁, h₂, h₃]
  refine ⟨terms, hexpand, hlength, fun term hmem => ?_⟩
  obtain ⟨i, hi, rfl⟩ := List.getElem_of_mem hmem
  obtain ⟨d, hd, hnonneg, -⟩ :=
    hterms ℝ Real.sqrt isRoot_realSqrt σ i _ (List.getElem?_eq_getElem hi)
    (hwall i (hlength ▸ hi))
  exact ⟨d, hd, hnonneg⟩

end Macro

end ChartNet
