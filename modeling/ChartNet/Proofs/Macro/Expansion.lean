import Mathlib
import ChartNet.Macro.Expand
import ChartNet.Proofs.Build

/-!
# Expanded expressions are primitive

An expression is `Primitive` if no macro occurs in it. Every operator by which a macro is replaced
is itself primitive over primitive operands, one lemma per abbreviation of the macro layer; so is
the expansion of any expression, as each case of the expansion puts such operators together.
-/

namespace ChartNet

/-! ### Primitive expressions -/

namespace Expr

/-- An expression is **primitive** if no macro occurs in it. -/
def Primitive (e : Expr) : Prop :=
  e.hasMacro = false

instance (e : Expr) : Decidable e.Primitive :=
  inferInstanceAs (Decidable (e.hasMacro = false))

variable {a b c d : Expr}

@[simp] theorem primitive_ident (name : String) : (ident name).Primitive := rfl

@[simp] theorem primitive_lit (v : Literal) : (lit v).Primitive := rfl

@[simp] theorem primitive_uniform (l u : Float) : (uniform l u).Primitive := rfl

@[simp] theorem primitive_array (v : ArrayValue) : (array v).Primitive := rfl

@[simp] theorem primitive_unary {op : UnaryOp} :
    (unary op a).Primitive ↔ op.isMacro = false ∧ a.Primitive := by
  simp [Primitive, hasMacro, any, isMacro]

@[simp] theorem primitive_binary {op : BinaryOp} :
    (binary op a b).Primitive ↔ op.isMacro = false ∧ a.Primitive ∧ b.Primitive := by
  simp [Primitive, hasMacro, any, isMacro, and_assoc]

@[simp] theorem primitive_ternary {op : TernaryOp} :
    (ternary op a b c).Primitive ↔
      op.isMacro = false ∧ a.Primitive ∧ b.Primitive ∧ c.Primitive := by
  simp [Primitive, hasMacro, any, isMacro, and_assoc]

/-- All operators with four operands are macros. -/
@[simp] theorem not_primitive_quaternary {op : QuaternaryOp} :
    ¬(quaternary op a b c d).Primitive := by
  simp [Primitive, hasMacro, any, isMacro]

/-! An operator that is no macro: primitive over primitive operands. -/

theorem primitive_unary_of {op : UnaryOp} (h : op.isMacro = false) :
    (unary op a).Primitive ↔ a.Primitive :=
  Iff.trans primitive_unary (and_iff_right h)

theorem primitive_binary_of {op : BinaryOp} (h : op.isMacro = false) :
    (binary op a b).Primitive ↔ a.Primitive ∧ b.Primitive :=
  Iff.trans primitive_binary (and_iff_right h)

theorem primitive_ternary_of {op : TernaryOp} (h : op.isMacro = false) :
    (ternary op a b c).Primitive ↔ a.Primitive ∧ b.Primitive ∧ c.Primitive :=
  Iff.trans primitive_ternary (and_iff_right h)

@[simp] theorem primitive_int (x : Float) : (int x).Primitive := rfl

@[simp] theorem primitive_real (x : Float) : (real x).Primitive := rfl

@[simp] theorem primitive_bool (x : Bool) : (bool x).Primitive := rfl

@[simp] theorem primitive_and : (Expr.and a b).Primitive ↔ a.Primitive ∧ b.Primitive :=
  primitive_binary_of rfl

@[simp] theorem primitive_eq : (Expr.eq a b).Primitive ↔ a.Primitive ∧ b.Primitive :=
  primitive_binary_of rfl

@[simp] theorem primitive_ite :
    (Expr.ite a b c).Primitive ↔ a.Primitive ∧ b.Primitive ∧ c.Primitive :=
  primitive_ternary_of rfl

end Expr

/-! ### The abbreviations of the macro layer -/

namespace Macro

open ChartNet.Expr

variable {a b c d : Expr} {robot : String}

@[simp] theorem primitive_plus : (plus a b).Primitive ↔ a.Primitive ∧ b.Primitive :=
  primitive_binary_of rfl

@[simp] theorem primitive_minus : (minus a b).Primitive ↔ a.Primitive ∧ b.Primitive :=
  primitive_binary_of rfl

@[simp] theorem primitive_times : (times a b).Primitive ↔ a.Primitive ∧ b.Primitive :=
  primitive_binary_of rfl

@[simp] theorem primitive_quot : (quot a b).Primitive ↔ a.Primitive ∧ b.Primitive :=
  primitive_binary_of rfl

@[simp] theorem primitive_maximum : (maximum a b).Primitive ↔ a.Primitive ∧ b.Primitive :=
  primitive_binary_of rfl

@[simp] theorem primitive_minimum : (minimum a b).Primitive ↔ a.Primitive ∧ b.Primitive :=
  primitive_binary_of rfl

@[simp] theorem primitive_atLeast : (atLeast a b).Primitive ↔ a.Primitive ∧ b.Primitive :=
  primitive_binary_of rfl

@[simp] theorem primitive_absolute : (absolute a).Primitive ↔ a.Primitive :=
  primitive_unary_of rfl

@[simp] theorem primitive_norm2d : (norm2d a b).Primitive ↔ a.Primitive ∧ b.Primitive := by
  simp [norm2d, BinaryOp.isMacro]

@[simp] theorem primitive_cross2d :
    (cross2d a b c d).Primitive ↔ (a.Primitive ∧ d.Primitive) ∧ b.Primitive ∧ c.Primitive := by
  simp [cross2d]

@[simp] theorem primitive_dot2d :
    (dot2d a b c d).Primitive ↔ (a.Primitive ∧ c.Primitive) ∧ b.Primitive ∧ d.Primitive := by
  simp [dot2d]

@[simp] theorem primitive_round : (round a).Primitive ↔ a.Primitive := by
  simp [round, UnaryOp.isMacro]

@[simp] theorem primitive_toCm : (toCm a).Primitive ↔ a.Primitive := by
  simp [toCm]

@[simp] theorem primitive_toM : (toM a).Primitive ↔ a.Primitive := by
  simp [toM]

@[simp] theorem primitive_toDeg : (toDeg a).Primitive ↔ a.Primitive := by
  simp [toDeg, BinaryOp.isMacro]

@[simp] theorem primitive_toRad : (toRad a).Primitive ↔ a.Primitive := by
  simp [toRad]

@[simp] theorem primitive_robotName (part : String) : (robotName robot part).Primitive := rfl

@[simp] theorem primitive_radius : (radius robot).Primitive := rfl

/-! ### The robot's world -/

/-- A vector is primitive if both coordinates are. -/
def Vec.Primitive (v : Vec) : Prop :=
  v.x.Primitive ∧ v.y.Primitive

variable {v w : Vec}

@[simp] theorem Vec.primitive_sub (hv : v.Primitive) (hw : w.Primitive) : (v.sub w).Primitive := by
  simp_all [Vec.sub, Vec.Primitive]

@[simp] theorem Vec.primitive_dot (hv : v.Primitive) (hw : w.Primitive) : (v.dot w).Primitive := by
  simp_all [Vec.dot, Vec.Primitive]

@[simp] theorem Vec.primitive_cross (hv : v.Primitive) (hw : w.Primitive) :
    (v.cross w).Primitive := by
  simp_all [Vec.cross, Vec.Primitive]

@[simp] theorem Vec.primitive_norm (hv : v.Primitive) : v.norm.Primitive := by
  simp_all [Vec.norm, Vec.Primitive]

@[simp] theorem primitive_vertex (i : Nat) : (vertex i).Primitive := ⟨rfl, rfl⟩

@[simp] theorem primitive_pose : (pose robot).Primitive := ⟨rfl, rfl⟩

@[simp] theorem primitive_poseCm : (poseCm robot).Primitive := ⟨rfl, rfl⟩

@[simp] theorem primitive_goal : (goal robot).Primitive := ⟨rfl, rfl⟩

theorem primitive_contact (count i : Nat) : (contact robot count i).Primitive := by
  simp [contact, sight, BinaryOp.isMacro]

theorem primitive_clearance (count i : Nat) : (clearance robot count i).Primitive := by
  simp [clearance, sight]

/-- Terms of walls combined by a primitive operator are primitive. -/
theorem primitive_overWalls {count : Nat} {term : Nat → Expr} {combine : Expr → Expr → Expr}
    {base : Expr} (hterm : ∀ i, (term i).Primitive) (hbase : base.Primitive)
    (hcombine : ∀ a b, a.Primitive → b.Primitive → (combine a b).Primitive) :
    (overWalls count term combine base).Primitive := by
  unfold overWalls
  induction List.range count with
  | nil => exact hbase
  | cons i is ih => exact hcombine _ _ (hterm i) ih

theorem primitive_intersect (barrier : Barrier) (count : Nat) :
    (intersect robot barrier count).Primitive := by
  have hwalls : (overWalls count (contact robot count) maximum (real 0)).Primitive :=
    primitive_overWalls (primitive_contact count) rfl fun _ _ ha hb => primitive_maximum.2 ⟨ha, hb⟩
  cases barrier <;> simp [intersect, hwalls]

theorem primitive_distance (barrier : Barrier) (count : Nat) :
    (distance robot barrier count).Primitive := by
  have hwalls : (overWalls count (clearance robot count) minimum (bool true)).Primitive :=
    primitive_overWalls (primitive_clearance count) rfl fun _ _ ha hb =>
      primitive_minimum.2 ⟨ha, hb⟩
  cases barrier <;> simp [distance, hwalls]

theorem primitive_distanceToPoint (ha : a.Primitive) (hb : b.Primitive) :
    (distanceToPoint robot a b).Primitive := by
  simp [distanceToPoint, ha, hb, poseCm]

/-! ### One operator -/

theorem primitive_expandUnary (op : UnaryOp) (ha : a.Primitive) : (expandUnary op a).Primitive := by
  cases op <;> simp [expandUnary, UnaryOp.isMacro, ha]

/-- The macros of the robot's world are not expanded operand by operand. -/
theorem primitive_expandBinary {op : BinaryOp} (hintersect : op ≠ .intersect)
    (hdistance : op ≠ .distance) (ha : a.Primitive) (hb : b.Primitive) :
    (expandBinary op a b).Primitive := by
  cases op <;> simp_all [expandBinary, BinaryOp.isMacro]

theorem primitive_expandQuaternary (op : QuaternaryOp) (ha : a.Primitive) (hb : b.Primitive)
    (hc : c.Primitive) (hd : d.Primitive) : (expandQuaternary op a b c d).Primitive := by
  cases op <;> simp [expandQuaternary, ha, hb, hc, hd]

end Macro

/-! ### Whole expressions -/

/-- The only macro of three operands is the distance of a robot to a point. -/
theorem TernaryOp.isMacro_eq_false {op : TernaryOp} (h : op ≠ .distanceToPoint) :
    op.isMacro = false := by
  cases op with
  | distanceToPoint => exact absurd rfl h
  | _ => rfl

theorem Macro.nameOperand_eq_ok {role op name : String} {a : Expr} :
    nameOperand role op a = .ok name ↔ a = .ident name := by
  cases a <;> simp [nameOperand, failType]

namespace Expr

open Macro

section Inversion

variable {constants : Constants} {a b c d e' : Expr}

/-! What an expression is expanded to, one equivalence for each number of operands. -/

theorem expand_unary_eq_ok {op : UnaryOp} :
    (unary op a).expand constants = .ok e' ↔
      ∃ a', a.expand constants = .ok a' ∧ expandUnary op a' = e' := by
  simp [expand, Result.bind_eq_ok, pure, Except.pure]

/-- A macro of the walls reads the names of a robot and of a barrier. Other operators are expanded
over the expansions of their operands. -/
theorem expand_binary_eq_ok {op : BinaryOp} :
    (binary op a b).expand constants = .ok e' ↔
      (∃ robot name barrier count, a = ident robot ∧ b = ident name ∧
        Barrier.ofName name = .ok barrier ∧ boundariesOf constants = .ok count ∧
        (op = .intersect ∧ intersect robot barrier count = e' ∨
          op = .distance ∧ distance robot barrier count = e')) ∨
      (op ≠ .intersect ∧ op ≠ .distance ∧ ∃ a' b', a.expand constants = .ok a' ∧
        b.expand constants = .ok b' ∧ expandBinary op a' b' = e') := by
  conv_lhs => unfold expand
  split
  · simp [Result.bind_eq_ok, nameOperand_eq_ok, pure, Except.pure]
  · simp [Result.bind_eq_ok, nameOperand_eq_ok, pure, Except.pure]
  · rename_i hintersect hdistance
    have hmacro : ¬op = .intersect ∧ ¬op = .distance := ⟨hintersect, hdistance⟩
    simp [Result.bind_eq_ok, hmacro, pure, Except.pure]

/-- The distance to a point reads the name of a robot. -/
theorem expand_ternary_eq_ok {op : TernaryOp} :
    (ternary op a b c).expand constants = .ok e' ↔
      (op = .distanceToPoint ∧ ∃ robot b' c', a = ident robot ∧ b.expand constants = .ok b' ∧
        c.expand constants = .ok c' ∧ distanceToPoint robot b' c' = e') ∨
      (op ≠ .distanceToPoint ∧ ∃ a' b' c', a.expand constants = .ok a' ∧
        b.expand constants = .ok b' ∧ c.expand constants = .ok c' ∧ ternary op a' b' c' = e') := by
  conv_lhs => unfold expand
  split
  · simp [Result.bind_eq_ok, nameOperand_eq_ok, pure, Except.pure]
  · rename_i hop
    have hmacro : ¬op = .distanceToPoint := hop
    simp [Result.bind_eq_ok, hmacro, pure, Except.pure]

theorem expand_quaternary_eq_ok {op : QuaternaryOp} :
    (quaternary op a b c d).expand constants = .ok e' ↔
      ∃ a' b' c' d', a.expand constants = .ok a' ∧ b.expand constants = .ok b' ∧
        c.expand constants = .ok c' ∧ d.expand constants = .ok d' ∧
        expandQuaternary op a' b' c' d' = e' := by
  simp [expand, Result.bind_eq_ok, pure, Except.pure]

end Inversion

/-- **The expansion of an expression is primitive.** -/
theorem primitive_of_expand {constants : Constants} {e e' : Expr}
    (h : e.expand constants = .ok e') :
    e'.Primitive := by
  induction e generalizing e' with
  | ident _ | lit _ | uniform _ _ | array _ =>
    cases h
    rfl
  | unary op a iha =>
    obtain ⟨a', ha, rfl⟩ := expand_unary_eq_ok.1 h
    exact primitive_expandUnary op (iha ha)
  | binary op a b iha ihb =>
    obtain ⟨robot, -, barrier, count, -, -, -, -, ⟨-, rfl⟩ | ⟨-, rfl⟩⟩ |
      ⟨hintersect, hdistance, a', b', ha, hb, rfl⟩ := expand_binary_eq_ok.1 h
    · exact primitive_intersect barrier count
    · exact primitive_distance barrier count
    · exact primitive_expandBinary hintersect hdistance (iha ha) (ihb hb)
  | ternary op a b c iha ihb ihc =>
    obtain ⟨-, robot, b', c', -, hb, hc, rfl⟩ | ⟨hop, a', b', c', ha, hb, hc, rfl⟩ :=
      expand_ternary_eq_ok.1 h
    · exact primitive_distanceToPoint (ihb hb) (ihc hc)
    · exact primitive_ternary.2 ⟨TernaryOp.isMacro_eq_false hop, iha ha, ihb hb, ihc hc⟩
  | quaternary op a b c d iha ihb ihc ihd =>
    obtain ⟨a', b', c', d', ha, hb, hc, hd, rfl⟩ := expand_quaternary_eq_ok.1 h
    exact primitive_expandQuaternary op (iha ha) (ihb hb) (ihc hc) (ihd hd)

end Expr

end ChartNet
