import ChartNet.Proofs.Number.Reading

/-!
# Equality of doubles

Two finite doubles are equal if and only if they are the same number (`Number.beq_iff`): the two
zeros are one number, and any other number has one canonical dyadic view. A natural number below
`2 ^ 53` is the value of its double, so comparing with the double compares with the number.
-/

namespace ChartNet.Number

open Float.Model (Format UnpackedFloat)
open Float.Model.UnpackedFloat

/-! ### The value of a dyadic number -/

/-- The rational number that a dyadic number is. -/
def Dyadic.value (d : Dyadic) : ℚ :=
  (if d.negative then -(d.significand : ℚ) else d.significand) * 2 ^ d.exponent

theorem numberOf_eq_value {x : Float} {d : Dyadic} (h : dyadic? x = some d) :
    numberOf x = d.value := by
  rw [numberOf, h]
  obtain ⟨negative, m, exponent⟩ := d
  have hcast : (((if negative then -(m : Int) else m : Int)) : ℚ) =
      if negative then -(m : ℚ) else m := by
    cases negative <;> simp
  cases exponent with
  | ofNat k => simp [Dyadic.value, hcast]
  | negSucc k =>
    simp only [Dyadic.value, Rat.mkRat_eq_div, hcast, zpow_negSucc, div_eq_mul_inv]
    push_cast
    rfl

variable {d d' : Dyadic}

/-- Of two canonical dyadic numbers with one absolute value, neither has the greater exponent. -/
theorem Dyadic.Canonical.exponent_le (h : d.Canonical) (h' : d'.Canonical)
    (heq : (d.significand : ℚ) * 2 ^ d.exponent = d'.significand * 2 ^ d'.exponent) :
    d'.exponent ≤ d.exponent := by
  rcases h'.normal with hnormal | hleast
  · by_contra hlt
    have hstep : (2 : ℚ) ^ (d.exponent + 1) ≤ 2 ^ d'.exponent :=
      zpow_le_zpow_right₀ one_le_two (by omega)
    have hcarry : (d.significand : ℚ) * 2 ^ d.exponent < d'.significand * 2 ^ d'.exponent := by
      calc (d.significand : ℚ) * 2 ^ d.exponent < 2 ^ 53 * 2 ^ d.exponent := by
            have hfull : (d.significand : ℚ) < 2 ^ 53 := by exact_mod_cast h.lt
            gcongr
        _ = 2 ^ 52 * 2 ^ (d.exponent + 1) := by
            rw [zpow_add_one₀ two_ne_zero]
            ring
        _ ≤ d'.significand * 2 ^ d'.exponent := by
            have hfull : (2 ^ 52 : ℚ) ≤ d'.significand := by exact_mod_cast hnormal
            gcongr
    exact hcarry.ne heq
  · rw [hleast]
    exact h.least

/-- A dyadic number is zero if its significand is, and its sign is otherwise that of its value. -/
theorem Dyadic.value_eq_zero_iff : d.value = 0 ↔ d.significand = 0 := by
  have hscale : (2 : ℚ) ^ d.exponent ≠ 0 := zpow_ne_zero _ two_ne_zero
  cases hd : d.negative <;> simp [value, hd, hscale]

theorem Dyadic.value_neg_iff (hm : d.significand ≠ 0) : d.value < 0 ↔ d.negative = true := by
  have hscale : (0 : ℚ) < 2 ^ d.exponent := by positivity
  have hpos : (0 : ℚ) < d.significand := by exact_mod_cast Nat.pos_of_ne_zero hm
  cases hd : d.negative <;> simp [value, hd, hscale, hscale.le, hpos, mul_neg_iff, hpos.not_gt]

/-- Canonical dyadic numbers with one value are both zero or the same. -/
theorem Dyadic.Canonical.value_eq_iff (h : d.Canonical) (h' : d'.Canonical) :
    d.value = d'.value ↔ d.significand = 0 ∧ d'.significand = 0 ∨ d.significand ≠ 0 ∧ d = d' := by
  constructor
  · intro heq
    by_cases hm : d.significand = 0
    · exact .inl ⟨hm, value_eq_zero_iff.1 (heq ▸ value_eq_zero_iff.2 hm)⟩
    · have hm' : d'.significand ≠ 0 :=
        fun hm' => hm (value_eq_zero_iff.1 (heq ▸ value_eq_zero_iff.2 hm'))
      have hsign : d.negative = d'.negative := by
        rw [Bool.eq_iff_iff, ← value_neg_iff hm, ← value_neg_iff hm', heq]
      have habs : (d.significand : ℚ) * 2 ^ d.exponent = d'.significand * 2 ^ d'.exponent := by
        rw [value, value, hsign] at heq
        split at heq
        · rwa [neg_mul, neg_mul, neg_inj] at heq
        · exact heq
      have hexponent : d.exponent = d'.exponent :=
        le_antisymm (h'.exponent_le h habs.symm) (h.exponent_le h' habs)
      have hsignificand : d.significand = d'.significand := by
        rw [hexponent] at habs
        exact_mod_cast mul_right_cancel₀ (zpow_ne_zero _ two_ne_zero) habs
      obtain ⟨negative, m, e⟩ := d
      exact .inr ⟨hm, by cases hsign; cases hsignificand; cases hexponent; rfl⟩
  · rintro (⟨hm, hm'⟩ | ⟨-, rfl⟩)
    · rw [value_eq_zero_iff.2 hm, value_eq_zero_iff.2 hm']
    · rfl

/-! ### Equality -/

/-- **Finite doubles are equal if they are the same number.** -/
theorem beq_iff {x y : Float} (hx : x.isFinite = true) (hy : y.isFinite = true) :
    (x == y) = true ↔ numberOf x = numberOf y := by
  rw [isFinite_eq, Option.isSome_iff_exists] at hx hy
  obtain ⟨d, hd⟩ := hx
  obtain ⟨d', hd'⟩ := hy
  rw [numberOf_eq_value hd, numberOf_eq_value hd',
    (bits_of_dyadic? hd).2.value_eq_iff (bits_of_dyadic? hd').2]
  change x.toModel.unpack.beq y.toModel.unpack = true ↔ _
  rw [unpack_of_dyadic? hd, unpack_of_dyadic? hd', Dyadic.unpacked, Dyadic.unpacked]
  obtain ⟨negative, m, e⟩ := d
  obtain ⟨negative', m', e'⟩ := d'
  by_cases hm : m = 0 <;> by_cases hm' : m' = 0 <;> cases negative <;> cases negative' <;>
    simp [UnpackedFloat.beq, UnpackedFloat.compare, hm, hm', signOf]
  all_goals exact and_comm

/-! ### Natural numbers among the doubles -/

/-- A number with a sign is natural if the sign is positive, unless the number is zero. -/
private theorem signed_eq_natCast {negative : Bool} {m n : Nat} :
    (if negative then -(m : Int) else m) = n ↔ (!negative || m == 0) = true ∧ m = n := by
  cases negative with
  | false => simp
  | true =>
    simp only [if_true, Bool.not_true, Bool.false_or, beq_iff_eq]
    omega

/-- A double is a natural number if it is finite and its value is that number. -/
theorem toNat?_eq_some {x : Float} {n : Nat} :
    toNat? x = some n ↔ x.isFinite = true ∧ numberOf x = n := by
  rw [isFinite_eq, toNat?, numberOf]
  cases dyadic? x with
  | none => simp
  | some d =>
    obtain ⟨negative, m, exponent⟩ := d
    simp only [Option.isSome_some, true_and, Dyadic.isWhole, Dyadic.wholePart, twoPow, Nat.pow_eq]
    cases exponent with
    | ofNat k =>
      have hcast (i : Int) : ((i : ℚ) * 2 ^ k = n) ↔ i * 2 ^ k = n := by exact_mod_cast Iff.rfl
      have hscale : (if negative then -(m : Int) else m) * 2 ^ k =
          if negative then -((m * 2 ^ k : Nat) : Int) else (m * 2 ^ k : Nat) := by
        cases negative <;> simp
      rw [hcast, hscale, signed_eq_natCast]
      simp
    | negSucc k =>
      have hpos : 0 < 2 ^ (k + 1) := by positivity
      have hcast (i : Int) : mkRat i (2 ^ (k + 1)) = (n : ℚ) ↔ i = (n * 2 ^ (k + 1) : Nat) := by
        rw [Rat.mkRat_eq_div, div_eq_iff (by positivity)]
        exact_mod_cast Iff.rfl
      have hdiv : (m % 2 ^ (k + 1) = 0 ∧ m / 2 ^ (k + 1) = n) ↔ m = n * 2 ^ (k + 1) := by
        constructor
        · rintro ⟨hmod, rfl⟩
          exact (Nat.div_mul_cancel (Nat.dvd_of_mod_eq_zero hmod)).symm
        · rintro rfl
          exact ⟨Nat.mul_mod_left _ _, Nat.mul_div_cancel _ hpos⟩
      rw [hcast, signed_eq_natCast, ← hdiv]
      simp only [Option.ite_none_right_eq_some, Option.some.injEq, Bool.and_eq_true, beq_iff_eq]
      exact and_assoc.trans and_left_comm

/-- A natural number is whole. -/
theorem isWhole_of_toNat? {x : Float} {n : Nat} (h : toNat? x = some n) : isWhole x = true := by
  unfold toNat? at h
  unfold isWhole
  cases hd : dyadic? x with
  | none => simp [hd] at h
  | some d => simp_all

/-- A natural number below `2 ^ 53` is the value of its double. -/
theorem toNat?_ofNat {n : Nat} (hn : n < 2 ^ 53) : toNat? (Float.ofNat n) = some n := by
  change toNat? (Float.ofScientific n false 0) = some n
  rcases Nat.eq_zero_or_pos n with rfl | hpos
  · decide +kernel
  have h := rounding_ofNat hpos hn
  have heq : Float.ofScientific n false 0 = (Dyadic.ofNat n).toFloat :=
    Rounding.ofScientific hpos (by simpa using h)
  have hpart : (Dyadic.ofNat n).wholePart = n := by
    rw [Dyadic.ofNat]
    cases 52 - n.log2 with
    | zero => simp [Dyadic.wholePart, twoPow]
    | succ k => exact Nat.mul_div_cancel n (by positivity)
  have hsign : (Dyadic.ofNat n).negative = false := rfl
  simp [toNat?, heq, dyadic?_toFloat h.canonical, isWhole_ofNat, hpart, hsign]

/-- Comparing a natural number with the double of another one compares the numbers. -/
theorem beq_ofNat_iff {x : Float} {n m : Nat} (hx : toNat? x = some n) (hm : m < 2 ^ 53) :
    (x == Float.ofNat m) = true ↔ n = m := by
  obtain ⟨hfinite, hvalue⟩ := toNat?_eq_some.1 hx
  obtain ⟨hfinite', hvalue'⟩ := toNat?_eq_some.1 (toNat?_ofNat hm)
  rw [beq_iff hfinite hfinite', hvalue, hvalue', Nat.cast_inj]

end ChartNet.Number
