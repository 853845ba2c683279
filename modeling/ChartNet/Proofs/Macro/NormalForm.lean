import ChartNet.Proofs.Expr.Kinds
import ChartNet.Proofs.Macro.Expansion
import ChartNet.Proofs.Number.Equality
import ChartNet.Proofs.Random.Texts

/-!
# The normal form of an expression

Expansion fails only at the macros of the robot's world. An expression is `Expandable` if every node
in it names what it has to name, and if the constants count the vertices of the boundary as soon as
a node meets the walls; one equivalence for each shape of expression takes this apart, operand by
operand. An expandable expression has a normal form: it is primitive, well-formed if the expression
was, and expansion leaves it as it is (`Expr.expand_normal`).
-/

namespace ChartNet

open Number (numberOf)

/-! ### What expansion asks for -/

/-- The constants **count the vertices** of the boundary: the constant for it is a numeric literal,
whose value is a whole number above one. -/
def Constants.CountVertices (constants : Constants) : Prop :=
  ∃ kind x, constants.get? "boundaries.count" = some (.lit (.num kind x)) ∧
    ∃ n : ℕ, 1 < n ∧ numberOf x = n

namespace Expr

/-- A node **meets the walls** if it is the intersection with a barrier or the distance from one. -/
def MeetsWalls : Expr → Prop
  | binary .intersect _ _ | binary .distance _ _ => True
  | _ => False

/-- A node is **named** if what has to be the name of a robot or of a barrier is one. -/
def Named : Expr → Prop
  | binary .intersect a b | binary .distance a b =>
    (∃ robot, a = ident robot) ∧ (b = ident "all" ∨ b = ident "boundaries" ∨ b = ident "obstacles")
  | ternary .distanceToPoint a _ _ => ∃ robot, a = ident robot
  | _ => True

/-- An expression is **expandable** if all its nodes are named, and if the constants count the
vertices of the boundary when one of its nodes meets the walls. -/
structure Expandable (constants : Constants) (e : Expr) : Prop where
  named : ∀ p, e.Contains p → p.Named
  counted : (∃ p, e.Contains p ∧ p.MeetsWalls) → constants.CountVertices

section Contains

variable {a b c d p : Expr}

theorem contains_unary {op : UnaryOp} :
    (unary op a).Contains p ↔ p = unary op a ∨ a.Contains p := by
  simp [Contains, any, @eq_comm Expr p]

theorem contains_binary {op : BinaryOp} :
    (binary op a b).Contains p ↔ p = binary op a b ∨ a.Contains p ∨ b.Contains p := by
  simp [Contains, any, @eq_comm Expr p, or_assoc]

theorem contains_ternary {op : TernaryOp} :
    (ternary op a b c).Contains p ↔
      p = ternary op a b c ∨ a.Contains p ∨ b.Contains p ∨ c.Contains p := by
  simp [Contains, any, @eq_comm Expr p, or_assoc]

theorem contains_quaternary {op : QuaternaryOp} :
    (quaternary op a b c d).Contains p ↔
      p = quaternary op a b c d ∨ a.Contains p ∨ b.Contains p ∨ c.Contains p ∨ d.Contains p := by
  simp [Contains, any, @eq_comm Expr p, or_assoc]

end Contains

/-! ### Expandable expressions, operand by operand -/

/-- What expansion asks for at one **node**: its names, and the count if it meets the walls. -/
def Allowed (constants : Constants) (p : Expr) : Prop :=
  p.Named ∧ (p.MeetsWalls → constants.CountVertices)

section Expandable

variable {constants : Constants} {a b c d : Expr}

/-- Only macros of the robot's world ask for anything. -/
theorem allowed_binary {op : BinaryOp} (hintersect : op ≠ .intersect) (hdistance : op ≠ .distance) :
    (binary op a b).Allowed constants := by
  cases op with
  | intersect => exact absurd rfl hintersect
  | distance => exact absurd rfl hdistance
  | _ => exact ⟨trivial, False.elim⟩

theorem allowed_ternary {op : TernaryOp} (hop : op ≠ .distanceToPoint) :
    (ternary op a b c).Allowed constants := by
  cases op with
  | distanceToPoint => exact absurd rfl hop
  | _ => exact ⟨trivial, False.elim⟩

theorem expandable_iff {e : Expr} :
    e.Expandable constants ↔ ∀ p, e.Contains p → p.Allowed constants := by
  constructor
  · intro h p hp
    exact ⟨h.named p hp, fun hwalls => h.counted ⟨p, hp, hwalls⟩⟩
  · intro h
    refine ⟨fun p hp => (h p hp).1, ?_⟩
    rintro ⟨p, hp, hwalls⟩
    exact (h p hp).2 hwalls

/-- An expression that contains nothing but itself is expandable if it is allowed as a node. -/
theorem expandable_of_leaf {e : Expr} (hleaf : ∀ p, e.Contains p → e = p)
    (hnode : e.Allowed constants) : e.Expandable constants :=
  expandable_iff.2 fun p hp => hleaf p hp ▸ hnode

@[simp] theorem expandable_ident (name : String) : (ident name).Expandable constants :=
  expandable_of_leaf (fun _ => of_decide_eq_true) ⟨trivial, False.elim⟩

@[simp] theorem expandable_lit (v : Literal) : (lit v).Expandable constants :=
  expandable_of_leaf (fun _ => of_decide_eq_true) ⟨trivial, False.elim⟩

@[simp] theorem expandable_uniform (l u : Float) : (uniform l u).Expandable constants :=
  expandable_of_leaf (fun _ => of_decide_eq_true) ⟨trivial, False.elim⟩

@[simp] theorem expandable_array (v : ArrayValue) : (array v).Expandable constants :=
  expandable_of_leaf (fun _ => of_decide_eq_true) ⟨trivial, False.elim⟩

@[simp] theorem expandable_unary {op : UnaryOp} :
    (unary op a).Expandable constants ↔ a.Expandable constants := by
  have hnode : (unary op a).Allowed constants := ⟨trivial, False.elim⟩
  simp only [expandable_iff, contains_unary, or_imp, forall_and, forall_eq, hnode, true_and]

@[simp] theorem expandable_binary {op : BinaryOp} :
    (binary op a b).Expandable constants ↔
      (binary op a b).Allowed constants ∧ a.Expandable constants ∧ b.Expandable constants := by
  simp only [expandable_iff, contains_binary, or_imp, forall_and, forall_eq]

@[simp] theorem expandable_ternary {op : TernaryOp} :
    (ternary op a b c).Expandable constants ↔
      (ternary op a b c).Allowed constants ∧
        a.Expandable constants ∧ b.Expandable constants ∧ c.Expandable constants := by
  simp only [expandable_iff, contains_ternary, or_imp, forall_and, forall_eq]

@[simp] theorem expandable_quaternary {op : QuaternaryOp} :
    (quaternary op a b c d).Expandable constants ↔
      a.Expandable constants ∧ b.Expandable constants ∧ c.Expandable constants ∧
        d.Expandable constants := by
  have hnode : (quaternary op a b c d).Allowed constants := ⟨trivial, False.elim⟩
  simp only [expandable_iff, contains_quaternary, or_imp, forall_and, forall_eq, hnode, true_and]

end Expandable

end Expr

/-! ### When expansion succeeds -/

namespace Macro

variable {constants : Constants}

/-- A boundary has a number of vertices if that is above one. -/
theorem boundaryCount_eq_ok {x : Float} {n : Nat} :
    boundaryCount (some x) = .ok n ↔ 1 < n ∧ numberOf x = n := by
  have hread : boundaryCount (some x) = .ok n ↔ Number.toNat? x = some n ∧ 1 < n := by
    simp only [boundaryCount]
    cases Number.toNat? x with
    | none => simp [failConfig]
    | some m =>
      by_cases hm : 1 < m
      · simp only [hm, if_true, Except.ok.injEq, Option.some.injEq]
        exact ⟨fun h => ⟨h, h ▸ hm⟩, And.left⟩
      · simp only [hm, if_false, failConfig, reduceCtorEq, Option.some.injEq, false_iff]
        rintro ⟨rfl, hn⟩
        exact hm hn
  rw [hread, Number.toNat?_eq_some]
  constructor
  · rintro ⟨⟨-, hx⟩, hn⟩
    exact ⟨hn, hx⟩
  · rintro ⟨hn, hx⟩
    refine ⟨⟨?_, hx⟩, hn⟩
    by_contra hinfinite
    rw [Number.isFinite_eq, Bool.not_eq_true, Option.isSome_eq_false_iff,
      Option.isNone_iff_eq_none] at hinfinite
    simp only [numberOf, hinfinite] at hx
    have : n = 0 := by exact_mod_cast hx.symm
    omega

/-- The boundary has the number of vertices that the constant for it gives. -/
theorem boundariesOf_eq_ok {n : Nat} :
    boundariesOf constants = .ok n ↔
      1 < n ∧ ∃ kind x, constants.get? "boundaries.count" = some (.lit (.num kind x)) ∧
        numberOf x = n := by
  have hnone : boundaryCount none ≠ .ok n := by simp [boundaryCount, failConfig]
  simp only [boundariesOf, boundaryCountName]
  cases constants.get? "boundaries.count" with
  | none => simp [hnone]
  | some e =>
    cases e with
    | lit v =>
      cases v with
      | num kind x => simp [Literal.number?, boundaryCount_eq_ok]
      | bool b => simp [Literal.number?, hnone]
      | constant c =>
        have hconstant : boundaryCount (some c.value) ≠ .ok n := by
          have hnat : Number.toNat? c.value = none := by
            cases c with
            | e => decide
            | pi | inherited m => exact (by decide : Number.toNat? NamedConstant.pi.value = none)
          simp [boundaryCount, hnat, failConfig]
        simp [Literal.number?, hconstant]
    | _ => simp [hnone]

theorem exists_boundariesOf_iff :
    (∃ n, boundariesOf constants = .ok n) ↔ constants.CountVertices := by
  simp only [boundariesOf_eq_ok, Constants.CountVertices]
  constructor
  · rintro ⟨n, hn, kind, x, hget, hx⟩
    exact ⟨kind, x, hget, n, hn, hx⟩
  · rintro ⟨kind, x, hget, n, hn, hx⟩
    exact ⟨n, hn, kind, x, hget, hx⟩

/-- The **barriers** have the names that a node may use. -/
theorem Barrier.exists_ofName_iff {name : String} :
    (∃ barrier, ofName name = .ok barrier) ↔
      name = "all" ∨ name = "boundaries" ∨ name = "obstacles" := by
  unfold ofName
  split_ifs <;> simp_all [failConfig]

end Macro

namespace Expr

open Macro

variable {constants : Constants}

/-- A macro of the walls is expanded if it names a robot and a barrier and the vertices are
counted. -/
private theorem exists_walls_iff {op : String} {a b : Expr} {f : String → Barrier → Nat → Expr} :
    (∃ e', (do
      let robot ← nameOperand "robot" op a
      let barrier ← Barrier.ofName (← nameOperand "barrier" op b)
      return f robot barrier (← boundariesOf constants) : Result Expr) = .ok e') ↔
    ((∃ robot, a = ident robot) ∧
      (b = ident "all" ∨ b = ident "boundaries" ∨ b = ident "obstacles")) ∧
      constants.CountVertices := by
  have hbarrier : (∃ name, b = ident name ∧ ∃ barrier, Barrier.ofName name = .ok barrier) ↔
      b = ident "all" ∨ b = ident "boundaries" ∨ b = ident "obstacles" := by
    simp only [Barrier.exists_ofName_iff]
    constructor
    · rintro ⟨name, rfl, h⟩
      simpa using h
    · rintro (rfl | rfl | rfl) <;> simp
  simp only [Result.exists_bind_eq_ok, nameOperand_eq_ok, Result.exists_pure_eq_ok, and_true,
    exists_boundariesOf_iff, ← hbarrier]
  constructor
  · rintro ⟨robot, ha, name, hb, barrier, hname, hcount⟩
    exact ⟨⟨⟨robot, ha⟩, name, hb, barrier, hname⟩, hcount⟩
  · rintro ⟨⟨⟨robot, ha⟩, name, hb, barrier, hname⟩, hcount⟩
    exact ⟨robot, ha, name, hb, barrier, hname, hcount⟩

/-- The operands of a macro of the walls ask for nothing, as they are plain names. -/
private theorem expandable_walls_iff {op : BinaryOp} (hop : op = .intersect ∨ op = .distance)
    {a b : Expr} :
    (binary op a b).Expandable constants ↔
      ((∃ robot, a = ident robot) ∧
        (b = ident "all" ∨ b = ident "boundaries" ∨ b = ident "obstacles")) ∧
        constants.CountVertices := by
  have hallowed : (binary op a b).Allowed constants ↔
      ((∃ robot, a = ident robot) ∧
        (b = ident "all" ∨ b = ident "boundaries" ∨ b = ident "obstacles")) ∧
        constants.CountVertices := by
    rcases hop with rfl | rfl <;>
      exact ⟨fun h => ⟨h.1, h.2 trivial⟩, fun h => ⟨h.1, fun _ => h.2⟩⟩
  rw [expandable_binary, hallowed]
  refine and_iff_left_of_imp ?_
  rintro ⟨⟨⟨robot, rfl⟩, rfl | rfl | rfl⟩, -⟩ <;>
    exact ⟨expandable_ident _, expandable_ident _⟩

/-- **Expansion succeeds exactly on expandable expressions.** -/
theorem exists_expand_iff {e : Expr} :
    (∃ e', e.expand constants = .ok e') ↔ e.Expandable constants := by
  induction e with
  | ident _ | lit _ | uniform _ _ | array _ => simp [expand]
  | unary op a iha =>
    simp only [expand, Result.exists_bind_eq_ok, Result.exists_pure_eq_ok, and_true, iha,
      expandable_unary]
  | binary op a b iha ihb =>
    unfold expand
    split
    · exact exists_walls_iff.trans (expandable_walls_iff (.inl rfl)).symm
    · exact exists_walls_iff.trans (expandable_walls_iff (.inr rfl)).symm
    · rename_i hintersect hdistance
      simp only [Result.exists_bind_eq_ok, Result.exists_pure_eq_ok, and_true, exists_and_right,
        iha, ihb, expandable_binary, allowed_binary hintersect hdistance, true_and]
  | ternary op a b c iha ihb ihc =>
    unfold expand
    split
    · have hrobot : (ternary .distanceToPoint a b c).Allowed constants ↔ ∃ robot, a = ident robot :=
        ⟨And.left, fun h => ⟨h, False.elim⟩⟩
      -- the operand that is a name is expandable anyway
      have hname : (∃ robot, a = ident robot) → a.Expandable constants := by
        rintro ⟨robot, rfl⟩
        simp
      simp only [Result.exists_bind_eq_ok, Result.exists_pure_eq_ok, and_true, exists_and_right,
        nameOperand_eq_ok, ihb, ihc, expandable_ternary, hrobot]
      constructor
      · rintro ⟨ha, hb, hc⟩
        exact ⟨ha, hname ha, hb, hc⟩
      · rintro ⟨ha, -, hb, hc⟩
        exact ⟨ha, hb, hc⟩
    · rename_i hop
      simp only [Result.exists_bind_eq_ok, Result.exists_pure_eq_ok, and_true, exists_and_right,
        iha, ihb, ihc, expandable_ternary, allowed_ternary hop, true_and]
  | quaternary op a b c d iha ihb ihc ihd =>
    simp only [expand, Result.exists_bind_eq_ok, Result.exists_pure_eq_ok, and_true, iha, ihb, ihc,
      ihd, exists_and_right, expandable_quaternary]

end Expr

/-! ### Well-formed expansions -/

namespace Expr

section WellFormed

variable {a b c d : Expr}

@[simp] theorem wellFormed_ident (name : String) : (ident name).WellFormed :=
  ⟨trivial, trivial, List.forall_mem_nil _⟩

@[simp] theorem wellFormed_bool (x : Bool) : (bool x).WellFormed :=
  ⟨trivial, trivial, List.forall_mem_nil _⟩

@[simp] theorem wellFormed_pi : (lit (.constant .pi)).WellFormed :=
  ⟨trivial, trivial, List.forall_mem_nil _⟩

@[simp] theorem wellFormed_real {x : Float} : (real x).WellFormed ↔ x.isFinite = true := by
  constructor
  · intro h
    exact h.finite x List.mem_cons_self
  · intro h
    have hfits : NumKind.real.Fits x := fun hint => by cases hint
    exact ⟨hfits, trivial, List.forall_mem_singleton.2 h⟩

@[simp] theorem wellFormed_int {x : Float} :
    (int x).WellFormed ↔ Number.isWhole x = true ∧ x.isFinite = true := by
  constructor
  · intro h
    exact ⟨h.tagged rfl, h.finite x List.mem_cons_self⟩
  · rintro ⟨hwhole, hfinite⟩
    exact ⟨fun _ => hwhole, trivial, List.forall_mem_singleton.2 hfinite⟩

@[simp] theorem wellFormed_unary {op : UnaryOp} : (unary op a).WellFormed ↔ a.WellFormed :=
  ⟨fun h => ⟨h.tagged, h.declared, h.finite⟩, fun h => ⟨h.tagged, h.declared, h.finite⟩⟩

@[simp] theorem wellFormed_binary {op : BinaryOp} :
    (binary op a b).WellFormed ↔ a.WellFormed ∧ b.WellFormed := by
  constructor
  · rintro ⟨⟨ha, hb⟩, ⟨hda, hdb⟩, hfinite⟩
    obtain ⟨hfa, hfb⟩ := List.forall_mem_append.1 hfinite
    exact ⟨⟨ha, hda, hfa⟩, ⟨hb, hdb, hfb⟩⟩
  · rintro ⟨ha, hb⟩
    exact ⟨⟨ha.tagged, hb.tagged⟩, ⟨ha.declared, hb.declared⟩,
      List.forall_mem_append.2 ⟨ha.finite, hb.finite⟩⟩

@[simp] theorem wellFormed_ternary {op : TernaryOp} :
    (ternary op a b c).WellFormed ↔ a.WellFormed ∧ b.WellFormed ∧ c.WellFormed := by
  constructor
  · rintro ⟨⟨ha, hb, hc⟩, ⟨hda, hdb, hdc⟩, hfinite⟩
    obtain ⟨hrest, hfc⟩ := List.forall_mem_append.1 hfinite
    obtain ⟨hfa, hfb⟩ := List.forall_mem_append.1 hrest
    exact ⟨⟨ha, hda, hfa⟩, ⟨hb, hdb, hfb⟩, ⟨hc, hdc, hfc⟩⟩
  · rintro ⟨ha, hb, hc⟩
    refine ⟨⟨ha.tagged, hb.tagged, hc.tagged⟩, ⟨ha.declared, hb.declared, hc.declared⟩, ?_⟩
    exact List.forall_mem_append.2
      ⟨List.forall_mem_append.2 ⟨ha.finite, hb.finite⟩, hc.finite⟩

@[simp] theorem wellFormed_quaternary {op : QuaternaryOp} :
    (quaternary op a b c d).WellFormed ↔
      a.WellFormed ∧ b.WellFormed ∧ c.WellFormed ∧ d.WellFormed := by
  constructor
  · rintro ⟨⟨ha, hb, hc, hd⟩, ⟨hda, hdb, hdc, hdd⟩, hfinite⟩
    obtain ⟨hrest, hfd⟩ := List.forall_mem_append.1 hfinite
    obtain ⟨hpair, hfc⟩ := List.forall_mem_append.1 hrest
    obtain ⟨hfa, hfb⟩ := List.forall_mem_append.1 hpair
    exact ⟨⟨ha, hda, hfa⟩, ⟨hb, hdb, hfb⟩, ⟨hc, hdc, hfc⟩, ⟨hd, hdd, hfd⟩⟩
  · rintro ⟨ha, hb, hc, hd⟩
    refine ⟨⟨ha.tagged, hb.tagged, hc.tagged, hd.tagged⟩,
      ⟨ha.declared, hb.declared, hc.declared, hd.declared⟩, ?_⟩
    exact List.forall_mem_append.2
      ⟨List.forall_mem_append.2 ⟨List.forall_mem_append.2 ⟨ha.finite, hb.finite⟩, hc.finite⟩,
        hd.finite⟩

end WellFormed

end Expr

namespace Macro

open ChartNet.Expr

variable {a b c d : Expr} {robot : String}

/-- The numbers that macros bring along are finite. -/
private theorem finite_numbers :
    Float.isFinite 0 = true ∧ Float.isFinite 0.01 = true ∧ Float.isFinite 0.5 = true ∧
      Float.isFinite 1 = true ∧ Float.isFinite 100 = true ∧ Float.isFinite 180 = true ∧
      Float.isFinite 360 = true := by
  decide

/-- Those of them that are written as ints are whole. -/
private theorem whole_numbers : Number.isWhole 180 = true ∧ Number.isWhole 360 = true := by
  decide

@[simp] theorem wellFormed_norm2d : (norm2d a b).WellFormed ↔ a.WellFormed ∧ b.WellFormed := by
  simp [norm2d, plus, times, finite_numbers]

@[simp] theorem wellFormed_cross2d :
    (cross2d a b c d).WellFormed ↔ (a.WellFormed ∧ d.WellFormed) ∧ b.WellFormed ∧ c.WellFormed := by
  simp [cross2d, minus, times]

@[simp] theorem wellFormed_dot2d :
    (dot2d a b c d).WellFormed ↔ (a.WellFormed ∧ c.WellFormed) ∧ b.WellFormed ∧ d.WellFormed := by
  simp [dot2d, plus, times]

@[simp] theorem wellFormed_round : (round a).WellFormed ↔ a.WellFormed := by
  simp [round, plus, finite_numbers]

@[simp] theorem wellFormed_toCm : (toCm a).WellFormed ↔ a.WellFormed := by
  simp [toCm, times, finite_numbers]

@[simp] theorem wellFormed_toM : (toM a).WellFormed ↔ a.WellFormed := by
  simp [toM, times, finite_numbers]

@[simp] theorem wellFormed_toDeg : (toDeg a).WellFormed ↔ a.WellFormed := by
  simp [toDeg, times, quot, finite_numbers, whole_numbers]

@[simp] theorem wellFormed_toRad : (toRad a).WellFormed ↔ a.WellFormed := by
  simp [toRad, times, quot, finite_numbers, whole_numbers]

@[simp] theorem wellFormed_zero : (real 0).WellFormed :=
  wellFormed_real.2 finite_numbers.1

@[simp] theorem wellFormed_one : (real 1).WellFormed :=
  wellFormed_real.2 finite_numbers.2.2.2.1

theorem wellFormed_clearance (count i : Nat) : (clearance robot count i).WellFormed := by
  simp [clearance, sight, Vec.dot, Vec.sub, Vec.cross, Vec.norm, vertex, pose, robotName, radius,
    minus, quot, absolute, maximum, -wellFormed_real]

theorem wellFormed_contact (count i : Nat) : (contact robot count i).WellFormed := by
  simp [contact, sight, Vec.dot, Vec.sub, Vec.cross, Vec.norm, vertex, pose, goal, robotName,
    radius, minus, times, quot, absolute, minimum, maximum, atLeast, Expr.eq, Expr.and, Expr.ite,
    -wellFormed_real]

/-- Terms of walls combined by a well-formed operator are well-formed. -/
theorem wellFormed_overWalls {count : Nat} {term : Nat → Expr} {op : BinaryOp} {base : Expr}
    (hterm : ∀ i, (term i).WellFormed) (hbase : base.WellFormed) :
    (overWalls count term (binary op) base).WellFormed := by
  unfold overWalls
  induction List.range count with
  | nil => exact hbase
  | cons i is ih => exact wellFormed_binary.2 ⟨hterm i, ih⟩

theorem wellFormed_intersect (barrier : Barrier) (count : Nat) :
    (intersect robot barrier count).WellFormed := by
  have hwalls : (overWalls count (contact robot count) maximum (real 0)).WellFormed :=
    wellFormed_overWalls (wellFormed_contact count) wellFormed_zero
  cases barrier <;> simp [intersect, maximum, hwalls, -wellFormed_real]

theorem wellFormed_distance (barrier : Barrier) (count : Nat) :
    (distance robot barrier count).WellFormed := by
  have hwalls : (overWalls count (clearance robot count) minimum (bool true)).WellFormed :=
    wellFormed_overWalls (wellFormed_clearance count) (wellFormed_bool true)
  cases barrier <;> simp [distance, maximum, hwalls]

theorem wellFormed_distanceToPoint (ha : a.WellFormed) (hb : b.WellFormed) :
    (distanceToPoint robot a b).WellFormed := by
  simp [distanceToPoint, minus, poseCm, robotName, ha, hb]

theorem wellFormed_expandUnary (op : UnaryOp) (ha : a.WellFormed) :
    (expandUnary op a).WellFormed := by
  cases op <;> simp [expandUnary, ha]

theorem wellFormed_expandBinary (op : BinaryOp) (ha : a.WellFormed) (hb : b.WellFormed) :
    (expandBinary op a b).WellFormed := by
  cases op <;> simp [expandBinary, ha, hb]

theorem wellFormed_expandQuaternary (op : QuaternaryOp) (ha : a.WellFormed) (hb : b.WellFormed)
    (hc : c.WellFormed) (hd : d.WellFormed) : (expandQuaternary op a b c d).WellFormed := by
  cases op <;> simp [expandQuaternary, ha, hb, hc, hd]

theorem declared_expandUnary (op : UnaryOp) : (expandUnary op a).Declared ↔ a.Declared := by
  cases op <;> simp [expandUnary, round, toCm, toM, toDeg, toRad, plus, times, quot, Expr.real,
    Expr.int, Declared, Literal.Declared, NamedConstant.Declared]

theorem declared_expandBinary (op : BinaryOp) :
    (expandBinary op a b).Declared ↔ a.Declared ∧ b.Declared := by
  cases op <;> simp [expandBinary, norm2d, plus, times, Expr.real, Declared, Literal.Declared]

theorem declared_expandQuaternary (op : QuaternaryOp) :
    (expandQuaternary op a b c d).Declared ↔
      a.Declared ∧ b.Declared ∧ c.Declared ∧ d.Declared := by
  cases op <;> simp [expandQuaternary, cross2d, dot2d, plus, minus, times, Declared] <;> tauto

theorem declared_distanceToPoint :
    (distanceToPoint robot a b).Declared ↔ a.Declared ∧ b.Declared := by
  simp [distanceToPoint, norm2d, round, toM, toCm, plus, minus, times, poseCm, robotName, Expr.real,
    Declared, Literal.Declared]

/-- A primitive operator is not rewritten. -/
theorem expandUnary_of_not_isMacro {op : UnaryOp} (h : op.isMacro = false) :
    expandUnary op a = unary op a := by
  cases op <;> first | rfl | exact absurd h (by decide)

theorem expandBinary_of_not_isMacro {op : BinaryOp} (h : op.isMacro = false) :
    expandBinary op a b = binary op a b := by
  cases op <;> first | rfl | exact absurd h (by decide)

end Macro

/-! ### Normal forms -/

namespace Expr

open Macro

variable {constants : Constants}

/-- The expansion of a well-formed expression is well-formed. -/
theorem wellFormed_of_expand {e e' : Expr} (he : e.WellFormed) (h : e.expand constants = .ok e') :
    e'.WellFormed := by
  induction e generalizing e' with
  | ident _ | lit _ | uniform _ _ | array _ =>
    cases h
    exact he
  | unary op a iha =>
    obtain ⟨a', ha, rfl⟩ := expand_unary_eq_ok.1 h
    exact wellFormed_expandUnary op (iha (wellFormed_unary.1 he) ha)
  | binary op a b iha ihb =>
    obtain ⟨hea, heb⟩ := wellFormed_binary.1 he
    obtain ⟨robot, -, barrier, count, -, -, -, -, ⟨-, rfl⟩ | ⟨-, rfl⟩⟩ |
        ⟨-, -, a', b', ha, hb, rfl⟩ :=
      expand_binary_eq_ok.1 h
    · exact wellFormed_intersect barrier count
    · exact wellFormed_distance barrier count
    · exact wellFormed_expandBinary op (iha hea ha) (ihb heb hb)
  | ternary op a b c iha ihb ihc =>
    obtain ⟨hea, heb, hec⟩ := wellFormed_ternary.1 he
    obtain ⟨-, robot, b', c', -, hb, hc, rfl⟩ | ⟨-, a', b', c', ha, hb, hc, rfl⟩ :=
      expand_ternary_eq_ok.1 h
    · exact wellFormed_distanceToPoint (ihb heb hb) (ihc hec hc)
    · exact wellFormed_ternary.2 ⟨iha hea ha, ihb heb hb, ihc hec hc⟩
  | quaternary op a b c d iha ihb ihc ihd =>
    obtain ⟨hea, heb, hec, hed⟩ := wellFormed_quaternary.1 he
    obtain ⟨a', b', c', d', ha, hb, hc, hd, rfl⟩ := expand_quaternary_eq_ok.1 h
    exact wellFormed_expandQuaternary op (iha hea ha) (ihb heb hb) (ihc hec hc) (ihd hed hd)

/-- An expansion is declared if and only if the expression is. -/
theorem declared_of_expand {e e' : Expr} (h : e.expand constants = .ok e') :
    e'.Declared ↔ e.Declared := by
  induction e generalizing e' with
  | ident _ | lit _ | uniform _ _ | array _ =>
    cases h
    rfl
  | unary op a iha =>
    obtain ⟨a', ha, rfl⟩ := expand_unary_eq_ok.1 h
    exact (declared_expandUnary op).trans (iha ha)
  | binary op a b iha ihb =>
    obtain ⟨robot, name, barrier, count, rfl, rfl, -, -, ⟨-, rfl⟩ | ⟨-, rfl⟩⟩ |
      ⟨-, -, a', b', ha, hb, rfl⟩ := expand_binary_eq_ok.1 h
    · exact iff_of_true (wellFormed_intersect barrier count).declared ⟨trivial, trivial⟩
    · exact iff_of_true (wellFormed_distance barrier count).declared ⟨trivial, trivial⟩
    · exact (declared_expandBinary op).trans (and_congr (iha ha) (ihb hb))
  | ternary op a b c iha ihb ihc =>
    obtain ⟨-, robot, b', c', rfl, hb, hc, rfl⟩ | ⟨-, a', b', c', ha, hb, hc, rfl⟩ :=
      expand_ternary_eq_ok.1 h
    · have htrue : (ident robot).Declared := trivial
      simpa [Declared, htrue] using declared_distanceToPoint.trans (and_congr (ihb hb) (ihc hc))
    · exact and_congr (iha ha) (and_congr (ihb hb) (ihc hc))
  | quaternary op a b c d iha ihb ihc ihd =>
    obtain ⟨a', b', c', d', ha, hb, hc, hd, rfl⟩ := expand_quaternary_eq_ok.1 h
    exact (declared_expandQuaternary op).trans
      (and_congr (iha ha) (and_congr (ihb hb) (and_congr (ihc hc) (ihd hd))))

/-- **A primitive expression is its own expansion**, whatever the constants are. -/
theorem Primitive.expand_eq {e : Expr} (h : e.Primitive) (constants : Constants) :
    e.expand constants = .ok e := by
  induction e with
  | ident _ | lit _ | uniform _ _ | array _ => rfl
  | unary op a iha =>
    obtain ⟨hop, ha⟩ := primitive_unary.1 h
    exact expand_unary_eq_ok.2 ⟨a, iha ha, expandUnary_of_not_isMacro hop⟩
  | binary op a b iha ihb =>
    obtain ⟨hop, ha, hb⟩ := primitive_binary.1 h
    refine expand_binary_eq_ok.2
      (.inr ⟨?_, ?_, a, b, iha ha, ihb hb, expandBinary_of_not_isMacro hop⟩)
    all_goals
      rintro rfl
      cases hop
  | ternary op a b c iha ihb ihc =>
    obtain ⟨hop, ha, hb, hc⟩ := primitive_ternary.1 h
    refine expand_ternary_eq_ok.2 (.inr ⟨?_, a, b, c, iha ha, ihb hb, ihc hc, rfl⟩)
    rintro rfl
    cases hop
  | quaternary op a b c d => exact absurd h not_primitive_quaternary

/-- **Expansion reaches a normal form, and fails exactly when it should.** A well-formed expression
has an expansion if and only if it is expandable, and the expansion is well-formed, free of macros,
and its own expansion under all constants. -/
theorem expand_normal {e : Expr} (he : e.WellFormed) (constants : Constants) :
    ((∃ e', e.expand constants = .ok e') ↔ e.Expandable constants) ∧
      ∀ e', e.expand constants = .ok e' →
        e'.WellFormed ∧ e'.Primitive ∧ ∀ constants', e'.expand constants' = .ok e' := by
  refine ⟨exists_expand_iff, fun e' h => ?_⟩
  have hprimitive : e'.Primitive := primitive_of_expand h
  exact ⟨wellFormed_of_expand he h, hprimitive, hprimitive.expand_eq⟩

/-- Macros within macros: how far a robot is from a point whose ordinate is a distance from the
walls, in degrees. A boundary of four vertices makes this expandable, one of a single vertex does
not. -/
theorem expand_normal_of_nested :
    let walls := binary .distance (ident "r") (ident "boundaries")
    let e := unary .toDeg (ternary .distanceToPoint (ident "r") (unary .round (real 0.25)) walls)
    let square : Constants := [("boundaries.count", int 4)]
    let dot : Constants := [("boundaries.count", int 1)]
    e.WellFormed ∧ (∃ e', e.expand square = .ok e' ∧ e'.WellFormed ∧ e'.Primitive) ∧
      ¬∃ e', e.expand dot = .ok e' := by
  intro walls e square dot
  have he : e.WellFormed := by
    have hquarter : Float.isFinite 0.25 = true := by decide
    simp [e, walls, hquarter]
  have hfour : numberOf 4 = (4 : ℕ) :=
    (Number.toNat?_eq_some.1 (Number.toNat?_ofNat (by norm_num))).2
  have hone : numberOf 1 = (1 : ℕ) :=
    (Number.toNat?_eq_some.1 (Number.toNat?_ofNat (by norm_num))).2
  have hsquare : e.Expandable square := by
    have hcount : square.CountVertices := ⟨.int, 4, rfl, 4, by decide, hfour⟩
    simp [e, walls, real, Allowed, Named, MeetsWalls, hcount]
  have hdot : ¬ e.Expandable dot := by
    intro h
    have hcontains : e.Contains walls := by
      simp [e, walls, contains_unary, contains_ternary, Contains.refl]
    obtain ⟨kind, x, hget, n, hn, hx⟩ := h.counted ⟨walls, hcontains, trivial⟩
    obtain ⟨rfl, rfl⟩ : NumKind.int = kind ∧ (1 : Float) = x := by
      simpa [dot, Constants.get?, int] using hget
    have : n = 1 := by exact_mod_cast hx.symm.trans hone
    omega
  obtain ⟨e', hok⟩ := (expand_normal he square).1.2 hsquare
  obtain ⟨hwell, hprimitive, -⟩ := (expand_normal he square).2 e' hok
  exact ⟨he, ⟨e', hok, hwell, hprimitive⟩, fun h => hdot ((expand_normal he dot).1.1 h)⟩

end Expr

end ChartNet
