import ChartNet.Proofs.Number.Doubles

/-!
# Sums of doubles

Adding doubles rounds, but it never loses a sign: the sum of numbers that are not below zero is a
number that is not below zero, be it infinite. So a sum of positive numbers can be compared: if it
does not differ from one by more than a tolerance, it differs by no more than that
(`Number.abs_one_sub_le`).
-/

namespace ChartNet.Number

open Float.Model (Format UnpackedFloat)
open Float.Model.UnpackedFloat

/-! ### Signs -/

/-- The **sign** of an unpacked double; what is no number has none. -/
def sign? : UnpackedFloat → Option Sign
  | .infinity s | .zero s | .finite s _ _ _ => some s
  | .notANumber => none

theorem unpackSign_packComponents (s : Sign) (e : BitVec 11) (m : BitVec 52) :
    unpackSign (packComponents Format.binary64 s e m) = s.toBitVec := by
  apply BitVec.eq_of_toNat_eq
  rw [toNat_unpackSign, toNat_packComponents]
  have he := e.isLt
  have hm := m.isLt
  omega

/-- Components are those of a number unless the exponent is the last one and the mantissa is not
zero. -/
theorem sign?_unpack_packComponents {s : Sign} {e : BitVec 11} {m : BitVec 52}
    (h : e = -1#11 → m = 0#52) :
    sign? (UnpackedFloat.unpack Format.binary64 (packComponents Format.binary64 s e m)) =
      some s := by
  have hsign : Sign.ofBitVec s.toBitVec = s := by cases s <;> rfl
  simp only [UnpackedFloat.unpack, unpackExponent_packComponents, unpackMantissa_packComponents,
    unpackSign_packComponents, hsign]
  split_ifs with he hm
  · rfl
  · exact absurd (h he) hm
  all_goals rfl

/-- **Packing keeps the sign** of a number. -/
theorem sign?_unpack_pack {u : UnpackedFloat} {s : Sign} (h : sign? u = some s) :
    sign? (UnpackedFloat.unpack Format.binary64 (UnpackedFloat.pack Format.binary64 u)) =
      some s := by
  unfold UnpackedFloat.pack
  split
  · cases h
  · cases h
    exact sign?_unpack_packComponents fun _ => rfl
  · cases h
    exact sign?_unpack_packComponents fun he => absurd he (by decide)
  · cases h
    dsimp only
    split_ifs with hlarge hnormal
    · exact sign?_unpack_packComponents fun _ => rfl
    · -- the last exponent is that of the infinities
      refine sign?_unpack_packComponents fun he => absurd ?_ hlarge
      have hfield := congrArg BitVec.toNat he
      rw [BitVec.toNat_ofNat] at hfield
      change _ % 2 ^ 11 = 2047 at hfield
      change 2 ^ 11 ≤ _ + 1
      omega
    · exact sign?_unpack_packComponents fun he => absurd he (by decide)

/-! ### Sums -/

private theorem sign?_round (s : Sign) (m : Nat) (e : Int) :
    sign? (UnpackedFloat.round Format.binary64 s m e) = some s := by
  simp only [UnpackedFloat.round, UnpackedFloat.roundWithAccuracy]
  split <;> rfl

/-- What is rounded is a number, and not below zero unless it was. -/
private theorem sign?_normalize (m e : Int) :
    ∃ s, sign? (UnpackedFloat.normalize Format.binary64 m e .positive) = some s ∧
      (0 ≤ m → s = .positive) := by
  unfold UnpackedFloat.normalize
  split
  · rename_i hlt
    refine ⟨_, sign?_round _ _ _, fun hm => ?_⟩
    have : m < 0 := Int.compare_eq_lt.1 hlt
    omega
  · exact ⟨_, rfl, fun _ => rfl⟩
  · exact ⟨_, sign?_round _ _ _, fun _ => rfl⟩

/-- **Sums of numbers that are not below zero** are not below zero. -/
theorem sign?_add {u v : UnpackedFloat} (hu : sign? u = some .positive)
    (hv : sign? v = some .positive) :
    sign? (UnpackedFloat.add Format.binary64 u v) = some .positive := by
  cases u with
  | notANumber => cases hu
  | infinity s =>
    cases hu
    cases v with
    | notANumber => cases hv
    | infinity s' =>
      cases hv
      rfl
    | zero s' => rfl
    | finite s' m e hm => rfl
  | zero s =>
    cases hu
    cases v with
    | notANumber => cases hv
    | infinity s' =>
      cases hv
      rfl
    | zero s' =>
      cases hv
      rfl
    | finite s' m e hm =>
      cases hv
      rfl
  | finite s m e hm =>
    cases hu
    cases v with
    | notANumber => cases hv
    | infinity s' =>
      cases hv
      rfl
    | zero s' => rfl
    | finite s' m' e' hm' =>
      cases hv
      simp only [UnpackedFloat.add, Sign.apply]
      -- both significands are aligned to the smaller exponent, and their sum is positive
      obtain ⟨s, hs, hpositive⟩ := sign?_normalize
        (((decreaseExponent m e (min e e')).1 : Int) +
          (decreaseExponent m' e' (min e e')).1) (min e e')
      rw [hs, hpositive (by positivity)]

/-- The difference of a finite number and any other number is a number. -/
theorem exists_sign?_sub {s s' : Sign} {m : Nat} {e : Int} {hm : 0 < m} {v : UnpackedFloat}
    (hv : sign? v = some s') :
    ∃ s'', sign? (UnpackedFloat.sub Format.binary64 (.finite s m e hm) v) = some s'' := by
  cases v with
  | notANumber => cases hv
  | infinity s' => exact ⟨_, rfl⟩
  | zero s' => exact ⟨_, rfl⟩
  | finite s' m' e' hm' =>
    simp only [UnpackedFloat.sub]
    obtain ⟨s'', hs, -⟩ := sign?_normalize (s.apply (decreaseExponent m e (min e e')).1 -
      s'.apply (decreaseExponent m' e' (min e e')).1) (min e e')
    exact ⟨s'', hs⟩

/-! ### Comparisons -/

theorem le_iff {x y : Float} : x ≤ y ↔ x.toModel.unpack.le y.toModel.unpack = true := by
  change (decide (x.toModel.unpack.le y.toModel.unpack = true)) = true ↔ _
  exact decide_eq_true_iff

/-- A number that is not above a positive one is at most that. -/
private theorem le_of_lt_eq_false {u : UnpackedFloat} {m : Nat} {e : Int} {hm : 0 < m}
    (hu : sign? u = some .positive) (h : (UnpackedFloat.finite .positive m e hm).lt u = false) :
    u.le (.finite .positive m e hm) = true := by
  cases u with
  | notANumber => cases hu
  | infinity s =>
    cases hu
    cases h
  | zero s => rfl
  | finite s m' e' hm' =>
    cases hu
    have hswap : (compare e' e).then (compare m' m) =
        ((compare e e').then (compare m m')).swap := by
      rw [Ordering.swap_then, Int.compare_swap, Nat.compare_swap]
    simp only [UnpackedFloat.lt, UnpackedFloat.compare, beq_eq_false_iff_ne, ne_eq,
      Option.some.injEq] at h
    simp only [UnpackedFloat.le, UnpackedFloat.compare, Option.any_some, hswap]
    cases hc : (compare e e').then (compare m m') <;> simp_all

theorem sign?_of_pos {x : Float} (h : 0 < x) : sign? x.toModel.unpack = some .positive := by
  rw [lt_iff, unpack_of_dyadic? dyadic?_zero] at h
  cases hx : x.toModel.unpack with
  | notANumber =>
    rw [hx] at h
    cases h
  | infinity s =>
    rw [hx] at h
    cases s with
    | positive => rfl
    | negative => cases h
  | zero s =>
    rw [hx] at h
    cases h
  | finite s m e hm =>
    rw [hx] at h
    cases s with
    | positive => rfl
    | negative => cases h

/-- A sum of positive numbers, from a number that is not below zero on. -/
theorem sign?_foldl_add {xs : List Float} (hxs : ∀ x ∈ xs, 0 < x) {total : Float}
    (htotal : sign? total.toModel.unpack = some .positive) :
    sign? (xs.foldl (· + ·) total).toModel.unpack = some .positive := by
  induction xs generalizing total with
  | nil => exact htotal
  | cons x xs ih =>
    rw [List.forall_mem_cons] at hxs
    exact ih hxs.2 (sign?_unpack_pack (sign?_add htotal (sign?_of_pos hxs.1)))

/-- **A difference from one that is not above a tolerance is at most the tolerance.** This would be
wrong of what is no number. -/
theorem abs_one_sub_le {x tolerance : Float} {d : Dyadic}
    (hx : sign? x.toModel.unpack = some .positive) (hd : dyadic? tolerance = some d)
    (hpositive : d.negative = false) (hne : d.significand ≠ 0)
    (h : ¬ (1 - x).abs > tolerance) : (1 - x).abs ≤ tolerance := by
  have hone : dyadic? 1 = some ⟨false, 2 ^ 52, -52⟩ := rfl
  have htolerance : tolerance.toModel.unpack =
      .finite .positive d.significand d.exponent (Nat.pos_of_ne_zero hne) := by
    rw [unpack_of_dyadic? hd, Dyadic.unpacked, dif_neg hne, hpositive]
    rfl
  have hsub : ∃ s, sign? (1 - x).toModel.unpack = some s := by
    have hfinite : (1 : Float).toModel.unpack = .finite .positive (2 ^ 52) (-52) (by decide) := by
      rw [unpack_of_dyadic? hone]
      rfl
    obtain ⟨s, hs⟩ := @exists_sign?_sub .positive _ (2 ^ 52) (-52) (by decide) _ hx
    refine ⟨s, sign?_unpack_pack ?_⟩
    rw [hfinite]
    exact hs
  obtain ⟨s, hs⟩ := hsub
  have habs : sign? (1 - x).abs.toModel.unpack = some .positive := by
    refine sign?_unpack_pack ?_
    cases hu : (1 - x).toModel.unpack with
    | notANumber =>
      rw [hu] at hs
      cases hs
    | _ => rfl
  rw [gt_iff_lt, lt_iff, htolerance, Bool.not_eq_true] at h
  have hle := le_of_lt_eq_false habs h
  rwa [← htolerance, ← le_iff] at hle

end ChartNet.Number
