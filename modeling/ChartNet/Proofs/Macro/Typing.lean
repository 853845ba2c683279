import ChartNet.Proofs.Macro.NormalForm

/-!
# Expansion keeps types

Which type a macro has stands in a table; which type its expansion has follows from the operators in
it. Both agree, up to one thing: a macro that is called real may expand to an expression over ints
only, and then it is int. A type that is as the other one, but int where that was real, **narrows**
it (`DataType.Narrows`). Every operator hands this on from its operands to its result, so the
expansion of an expression has a type, and one that narrows the type of the expression
(`Expr.infer_expand`).

What types the names of the robot's world have does not matter: they stand below quotients and
powers, which are real in any case. The distance from the walls is left out: the nested minimum that
stands for it ends in a truth value, whatever the table says.
-/

namespace ChartNet

/-! ### Types that are int where another is real -/

/-- A scalar **narrows** another if it is the same, or int where that is real. -/
def Scalar.Narrows (a' a : Scalar) : Prop :=
  a' = a ∨ a' = .int ∧ a = .real

instance (a' a : Scalar) : Decidable (a'.Narrows a) :=
  inferInstanceAs (Decidable (_ ∨ _))

theorem Scalar.Narrows.join {a a' b b' : Scalar} (ha : a'.Narrows a) (hb : b'.Narrows b) :
    (a'.join b').Narrows (a.join b) := by
  revert ha hb
  cases a <;> cases b <;> cases a' <;> cases b' <;> decide

/-- The result of arithmetic is int or real. -/
theorem Scalar.narrows_real_join (a b : Scalar) : (a.join b).Narrows .real := by
  cases a <;> cases b <;> decide

namespace DataType

/-- A type **narrows** another if it is the same, or int where that is real: as a scalar or as the
base of an array. -/
inductive Narrows : DataType → DataType → Prop
  | refl (t : DataType) : Narrows t t
  | real : Narrows (.scalar .int) (.scalar .real)
  | array (sizes : List Size) : Narrows (.array ⟨.int, sizes⟩) (.array ⟨.real, sizes⟩)

variable {s s' t t' u : DataType}

theorem narrows_scalar {a a' : Scalar} (h : a'.Narrows a) : (scalar a').Narrows (scalar a) := by
  rcases h with rfl | ⟨rfl, rfl⟩
  · exact .refl _
  · exact .real

namespace Narrows

theorem isArray_eq (h : t'.Narrows t) : t'.isArray = t.isArray := by
  cases h <;> rfl

theorem base (h : t'.Narrows t) : t'.base.Narrows t.base := by
  cases h with
  | refl => exact .inl rfl
  | real | array => exact .inr ⟨rfl, rfl⟩

theorem element {shape : ArrayShape} (h : t'.Narrows (.array shape)) :
    ∃ shape', t' = .array shape' ∧ shape'.element.Narrows shape.element := by
  cases h with
  | refl => exact ⟨shape, rfl, .refl _⟩
  | array sizes =>
    refine ⟨_, rfl, ?_⟩
    simp only [ArrayShape.element]
    cases sizes.tail with
    | nil => exact .real
    | cons size rest => exact .array _

theorem comprehension (h : t'.Narrows t) : t'.comprehension.Narrows t.comprehension := by
  cases h with
  | refl => exact .refl _
  | real | array => exact .array _

/-- Where a conditional has a type, it has a narrower one over narrower branches. -/
theorem branch (hs : s'.Narrows s) (ht : t'.Narrows t)
    (h : DataType.branch (some s) (some t) = some u) :
    ∃ u', DataType.branch (some s') (some t') = some u' ∧ u'.Narrows u := by
  simp only [DataType.branch, hs.isArray_eq, ht.isArray_eq] at h ⊢
  split at h
  · rename_i harray
    cases h
    exact ⟨s', if_pos harray, hs⟩
  · rename_i harray
    have hs := hs.base
    have ht := ht.base
    revert h hs ht
    simp only [harray]
    generalize s'.base = a', s.base = a, t'.base = b', t.base = b
    cases a <;> cases b <;> cases a' <;> cases b' <;> simp [Scalar.Narrows] <;> rintro rfl <;>
      first | exact .refl _ | exact .real

end Narrows

end DataType

/-! ### Typed expressions -/

namespace Expr

/-- The operands of a node that are **values**: the names of robots and barriers are none. -/
def valueOperands : Expr → List Expr
  | ident _ | lit _ | uniform _ _ | array _ => []
  | unary _ a => [a]
  | binary op a b => if op = .intersect ∨ op = .distance then [] else [a, b]
  | ternary op a b c => if op = .distanceToPoint then [b, c] else [a, b, c]
  | quaternary _ a b c d => [a, b, c, d]

/-- An expression is **typed** throughout if it has a type, and so has each value in it. -/
inductive Typed (types : TypeLookup) : Expr → Prop
  | node {e : Expr} {t : DataType} (h : e.infer types = .ok (some t))
      (hvalues : ∀ a ∈ e.valueOperands, Typed types a) : Typed types e

/-- One expression **refines** another if both have a type, and the first one the narrower. -/
def Refines (types : TypeLookup) (e' e : Expr) : Prop :=
  ∃ t t', e.infer types = .ok (some t) ∧ e'.infer types = .ok (some t') ∧ t'.Narrows t

section Refines

variable {types : TypeLookup} {a a' b b' c c' : Expr} {t : DataType}

theorem Refines.exists_infer (h : a'.Refines types a) : ∃ t', a'.infer types = .ok (some t') :=
  let ⟨_, t', _, h', _⟩ := h
  ⟨t', h'⟩

/-- An expression that has the type of another refines it. -/
theorem refines_of_infer (h : a.infer types = .ok (some t)) (h' : a'.infer types = .ok (some t)) :
    a'.Refines types a :=
  ⟨t, t, h, h', .refl t⟩

/-- Arithmetic over numbers is real as soon as one of them is. -/
theorem infer_arithmetic (op : BinaryOp) (hop : op.type? = none) (haccess : op ≠ .access)
    {s t : DataType} (ha : a.infer types = .ok (some s)) (hb : b.infer types = .ok (some t)) :
    (binary op a b).infer types = .ok (some (.scalar (s.base.join t.base))) := by
  simp only [infer, hop, haccess, ha, hb]
  rfl

theorem Refines.arithmetic (op : BinaryOp) (hop : op.type? = none) (haccess : op ≠ .access)
    (ha : a'.Refines types a) (hb : b'.Refines types b) :
    (binary op a' b').Refines types (binary op a b) := by
  obtain ⟨s, s', hs, hs', hnarrow⟩ := ha
  obtain ⟨t, t', ht, ht', hnarrow'⟩ := hb
  exact ⟨_, _, infer_arithmetic op hop haccess hs ht, infer_arithmetic op hop haccess hs' ht',
    DataType.narrows_scalar (hnarrow.base.join hnarrow'.base)⟩

theorem Refines.access (ha : a'.Refines types a)
    (h : (binary .access a b).infer types = .ok (some t)) :
    (binary .access a' b').Refines types (binary .access a b) := by
  obtain ⟨s, s', hs, hs', hnarrow⟩ := ha
  cases s with
  | array shape =>
    obtain ⟨shape', rfl, helement⟩ := hnarrow.element
    refine ⟨shape.element, shape'.element, ?_, ?_, helement⟩
    · simp only [infer, hs]
      rfl
    · simp only [infer, hs']
      rfl
  | scalar _ | bounded _ _ _ =>
    simp only [infer, hs] at h
    cases h

theorem Refines.abs (ha : a'.Refines types a) : (unary .abs a').Refines types (unary .abs a) := by
  obtain ⟨s, s', hs, hs', hnarrow⟩ := ha
  refine ⟨.scalar s.base, .scalar s'.base, ?_, ?_, DataType.narrows_scalar hnarrow.base⟩
  · simp [infer, UnaryOp.type?, hs]
  · simp [infer, UnaryOp.type?, hs']

theorem Refines.ite (hb : b'.Refines types b) (hc : c'.Refines types c)
    (h : (ternary .ite a b c).infer types = .ok (some t)) :
    (ternary .ite a' b' c').Refines types (ternary .ite a b c) := by
  obtain ⟨s, s', hs, hs', hnarrow⟩ := hb
  obtain ⟨u, u', hu, hu', hnarrow'⟩ := hc
  have hinfer : (ternary .ite a b c).infer types = .ok (DataType.branch (some s) (some u)) := by
    simp only [infer, hs, hu]
    rfl
  have hinfer' : (ternary .ite a' b' c').infer types =
      .ok (DataType.branch (some s') (some u')) := by
    simp only [infer, hs', hu']
    rfl
  obtain ⟨t', ht', hnarrows⟩ := hnarrow.branch hnarrow' (Except.ok.inj (hinfer.symm.trans h))
  exact ⟨t, t', h, by rw [hinfer', ht'], hnarrows⟩

theorem Refines.comprehension (hc : c'.Refines types c) :
    (ternary .comprehension a' b' c').Refines types (ternary .comprehension a b c) := by
  obtain ⟨t, t', ht, ht', hnarrow⟩ := hc
  refine ⟨t.comprehension, t'.comprehension, ?_, ?_, hnarrow.comprehension⟩
  · simp only [infer, ht]
    rfl
  · simp only [infer, ht']
    rfl

end Refines

end Expr

/-! ### The types of expansions -/

namespace Macro

open ChartNet.Expr

variable {types : TypeLookup} {a a' b b' c c' d d' : Expr} {t : DataType} {robot : String}

theorem infer_contact (count i : Nat) : (contact robot count i).infer types = .ok (some .real) :=
  rfl

theorem infer_intersect (barrier : Barrier) (count : Nat) :
    (intersect robot barrier count).infer types = .ok (some .real) := by
  have hwalls : (overWalls count (contact robot count) maximum (real 0)).infer types =
      .ok (some .real) := by
    unfold overWalls
    induction List.range count with
    | nil => rfl
    | cons i is ih => exact infer_arithmetic .max rfl nofun (infer_contact count i) ih
  cases barrier with
  | all => exact infer_arithmetic .max rfl nofun hwalls rfl
  | boundaries => exact hwalls
  | obstacles => rfl

theorem refines_expandUnary (op : UnaryOp) (ha : a'.Refines types a) :
    (expandUnary op a').Refines types (unary op a) := by
  obtain ⟨s', hs'⟩ := ha.exists_infer
  have hreal {x : Expr} (hx : x.infer types = .ok (some .real)) :
      (times a' x).infer types = .ok (some .real) := by
    rw [times, infer_arithmetic .mul rfl (by simp) hs' hx]
    cases s'.base <;> rfl
  cases op with
  | abs => exact ha.abs
  | toM => exact refines_of_infer rfl (hreal rfl)
  | toRad => exact refines_of_infer rfl (hreal rfl)
  | _ => exact refines_of_infer rfl rfl

theorem refines_expandBinary {op : BinaryOp} (hintersect : op ≠ .intersect)
    (hdistance : op ≠ .distance) (ha : a'.Refines types a) (hb : b'.Refines types b)
    (h : (binary op a b).infer types = .ok (some t)) :
    (expandBinary op a' b').Refines types (binary op a b) := by
  cases op with
  | intersect => exact absurd rfl hintersect
  | distance => exact absurd rfl hdistance
  | access => exact ha.access h
  | add | sub | mul | mod | min | max => exact ha.arithmetic _ rfl nofun hb
  | _ => exact refines_of_infer rfl rfl

theorem refines_expandQuaternary (op : QuaternaryOp) (ha : a'.Refines types a)
    (hb : b'.Refines types b) (hc : c'.Refines types c) (hd : d'.Refines types d) :
    (expandQuaternary op a' b' c' d').Refines types (quaternary op a b c d) := by
  obtain ⟨s₁, h₁⟩ := ha.exists_infer
  obtain ⟨s₂, h₂⟩ := hb.exists_infer
  obtain ⟨s₃, h₃⟩ := hc.exists_infer
  obtain ⟨s₄, h₄⟩ := hd.exists_infer
  cases op with
  | dot2d =>
    have hsum := infer_arithmetic .add rfl nofun (infer_arithmetic .mul rfl nofun h₁ h₃)
      (infer_arithmetic .mul rfl nofun h₂ h₄)
    exact ⟨_, _, rfl, hsum, DataType.narrows_scalar (Scalar.narrows_real_join _ _)⟩
  | cross2d =>
    have hdifference := infer_arithmetic .sub rfl nofun (infer_arithmetic .mul rfl nofun h₁ h₄)
      (infer_arithmetic .mul rfl nofun h₂ h₃)
    exact ⟨_, _, rfl, hdifference, DataType.narrows_scalar (Scalar.narrows_real_join _ _)⟩

/-- The other macro of three operands is the distance from a point. -/
theorem refines_ternary {op : TernaryOp} (hop : op ≠ .distanceToPoint) (hb : b'.Refines types b)
    (hc : c'.Refines types c) (h : (ternary op a b c).infer types = .ok (some t)) :
    (ternary op a' b' c').Refines types (ternary op a b c) := by
  cases op with
  | distanceToPoint => exact absurd rfl hop
  | ite => exact hb.ite hc h
  | comprehension => exact hc.comprehension

theorem infer_distanceToPoint : (distanceToPoint robot b c).infer types = .ok (some .real) := rfl

end Macro

namespace Expr

open Macro

variable {types : TypeLookup} {constants : Constants}

/-- The expansion of a typed expression refines it. -/
private theorem refines_of_expand {e e' : Expr}
    (hdistance : ∀ a b, ¬e.Contains (binary .distance a b)) (htyped : e.Typed types)
    (h : e.expand constants = .ok e') : e'.Refines types e := by
  induction e generalizing e' with
  | ident _ | lit _ | uniform _ _ | array _ =>
    cases h
    obtain ⟨ht, -⟩ := htyped
    exact refines_of_infer ht ht
  | unary op a iha =>
    simp only [contains_unary, not_or, forall_and] at hdistance
    obtain ⟨-, hvalues⟩ := htyped
    obtain ⟨a', ha, rfl⟩ := expand_unary_eq_ok.1 h
    exact refines_expandUnary op (iha hdistance.2 (hvalues a (by simp [valueOperands])) ha)
  | binary op a b iha ihb =>
    have hself : op ≠ .distance := by
      rintro rfl
      exact hdistance a b (.refl _)
    simp only [contains_binary, not_or, forall_and] at hdistance
    obtain ⟨ht, hvalues⟩ := htyped
    obtain ⟨robot, -, barrier, count, -, -, -, -, ⟨rfl, rfl⟩ | ⟨rfl, -⟩⟩ |
      ⟨hintersect, -, a', b', ha, hb, rfl⟩ := expand_binary_eq_ok.1 h
    · exact refines_of_infer rfl (infer_intersect barrier count)
    · exact absurd rfl hself
    · -- an operator that meets no walls is typed from both operands
      have hoperands : (binary op a b).valueOperands = [a, b] :=
        if_neg (not_or.2 ⟨hintersect, hself⟩)
      rw [hoperands] at hvalues
      exact refines_expandBinary hintersect hself (iha hdistance.2.1 (hvalues a (by simp)) ha)
        (ihb hdistance.2.2 (hvalues b (by simp)) hb) ht
  | ternary op a b c iha ihb ihc =>
    simp only [contains_ternary, not_or, forall_and] at hdistance
    obtain ⟨ht, hvalues⟩ := htyped
    obtain ⟨rfl, robot, b', c', -, hb, hc, rfl⟩ | ⟨hop, a', b', c', ha, hb, hc, rfl⟩ :=
      expand_ternary_eq_ok.1 h
    · exact refines_of_infer rfl infer_distanceToPoint
    · have hoperands : (ternary op a b c).valueOperands = [a, b, c] := if_neg hop
      rw [hoperands] at hvalues
      exact refines_ternary hop (ihb hdistance.2.2.1 (hvalues b (by simp)) hb)
        (ihc hdistance.2.2.2 (hvalues c (by simp)) hc) ht
  | quaternary op a b c d iha ihb ihc ihd =>
    simp only [contains_quaternary, not_or, forall_and] at hdistance
    obtain ⟨-, hvalues⟩ := htyped
    obtain ⟨a', b', c', d', ha, hb, hc, hd, rfl⟩ := expand_quaternary_eq_ok.1 h
    exact refines_expandQuaternary op
      (iha hdistance.2.1 (hvalues a (by simp [valueOperands])) ha)
      (ihb hdistance.2.2.1 (hvalues b (by simp [valueOperands])) hb)
      (ihc hdistance.2.2.2.1 (hvalues c (by simp [valueOperands])) hc)
      (ihd hdistance.2.2.2.2 (hvalues d (by simp [valueOperands])) hd)

/-- **Expansion refines the type.** If no node of an expression is a distance and every value in it
has a type, then the expression has a type, and so has its expansion: the same one, or the one that
is int where it is real. -/
theorem infer_expand {e e' : Expr} (hdistance : ∀ a b, ¬e.Contains (binary .distance a b))
    (htyped : e.Typed types) (h : e.expand constants = .ok e') :
    ∃ t t', e.infer types = .ok (some t) ∧ e'.infer types = .ok (some t') ∧ t'.Narrows t :=
  refines_of_expand hdistance htyped h

/-- A product of int vectors, chosen where the way of a robot is free for more than one half: real
before the expansion, int after it. -/
theorem infer_expand_of_product :
    let types : TypeLookup := fun name => if name = "x" then some .int else none
    let square : Constants := [("boundaries.count", int 4)]
    let x := ident "x"
    let free := binary .lt (binary .intersect (ident "r") (ident "boundaries")) (real 0.5)
    let e := ternary .ite free (quaternary .dot2d x x x x) (int 1)
    (∀ a b, ¬e.Contains (binary .distance a b)) ∧ e.Typed types ∧
      ∃ e', e.expand square = .ok e' ∧ e.infer types = .ok (some .real) ∧
        e'.infer types = .ok (some .int) ∧ DataType.int.Narrows .real := by
  intro types square x free e
  have hdistance (a b : Expr) : ¬e.Contains (binary .distance a b) := by
    simp [e, free, x, Contains, any, int, real]
  have hx : x.Typed types :=
    .node (rfl : x.infer types = .ok (some .int)) (by simp [x, valueOperands])
  have hint : (int 1).Typed types :=
    .node (rfl : (int 1).infer types = _) (by simp [int, valueOperands])
  have hreal : (real 0.5).Typed types :=
    .node (rfl : (real 0.5).infer types = _) (by simp [real, valueOperands])
  have hwalls : (binary .intersect (ident "r") (ident "boundaries")).Typed types :=
    .node rfl (by simp [valueOperands])
  have hfree : free.Typed types :=
    .node rfl (by simp [free, valueOperands, hwalls, hreal])
  have hproduct : (quaternary .dot2d x x x x).Typed types :=
    .node rfl (by simp [valueOperands, hx])
  have htyped : e.Typed types :=
    .node rfl (by simp [e, valueOperands, hfree, hproduct, hint])
  have hfour : Number.numberOf 4 = (4 : ℕ) :=
    (Number.toNat?_eq_some.1 (by decide : Number.toNat? 4 = some 4)).2
  have hcount : boundariesOf square = .ok 4 :=
    boundariesOf_eq_ok.2 ⟨by decide, .int, 4, rfl, hfour⟩
  -- the product is real by its type, but what it is expanded to is int
  have hexpand : e.expand square = .ok (ternary .ite
      (binary .lt (intersect "r" .boundaries 4) (real 0.5)) (dot2d x x x x) (int 1)) := by
    simp only [e, free, x, expand, nameOperand, hcount]
    rfl
  obtain ⟨t, t', ht, ht', hnarrows⟩ := infer_expand hdistance htyped hexpand
  obtain rfl : t = .real := (Option.some.inj (Except.ok.inj (ht.symm.trans rfl)))
  obtain rfl : t' = .int := (Option.some.inj (Except.ok.inj (ht'.symm.trans rfl)))
  exact ⟨hdistance, htyped, _, hexpand, ht, ht', hnarrows⟩

end Expr

end ChartNet
