import Mathlib
import ChartNet.Proofs.Number.Rounding
import ChartNet.Number.Reading

/-!
# Reading decimals

A decimal is read as the double that it **rounds** to: by one exact operation if digits and power of
ten are doubles themselves, otherwise by the model of doubles. A natural number is read as a double
without a fraction, however large it is.
-/

namespace ChartNet.Number

open Float.Model (Format UnpackedFloat)
open Float.Model.UnpackedFloat

variable {v : ℚ} {d : Dyadic} {m m₁ m₂ : Nat} {q e₁ e₂ : Int}

/-! ### Whole numbers with few bits -/

/-- A double rounds to itself. -/
theorem rounding_self (hpos : 0 < m) (h : (⟨false, m, q⟩ : Dyadic).Canonical) :
    Rounding (m * 2 ^ q) ⟨false, m, q⟩ := by
  refine ⟨rfl, hpos, h, ?_, ?_⟩
  · rw [mul_div_cancel_right₀ _ (zpow_ne_zero _ two_ne_zero)]
    exact ⟨by simp, by simp, .inr ⟨by simp, by simp⟩⟩
  · rintro (rfl : m = 2 ^ 52) -
    rw [mul_div_cancel_right₀ _ (zpow_ne_zero _ two_ne_zero)]
    push_cast
    linarith

/-- The dyadic number that a natural number below `2 ^ 53` is. -/
def Dyadic.ofNat (n : Nat) : Dyadic :=
  ⟨false, n * 2 ^ (52 - n.log2), -((52 - n.log2 : Nat) : Int)⟩

/-- The significand of a whole number fills its bits. -/
theorem le_significand_ofNat {n : Nat} (hpos : 0 < n) (hn : n < 2 ^ 53) :
    2 ^ 52 ≤ n * 2 ^ (52 - n.log2) := by
  have hlog := (Nat.log2_lt hpos.ne').2 hn
  calc 2 ^ 52 = 2 ^ n.log2 * 2 ^ (52 - n.log2) := by
        rw [← Nat.pow_add, Nat.add_sub_of_le (by omega)]
    _ ≤ n * 2 ^ (52 - n.log2) := Nat.mul_le_mul_right _ (Nat.log2_self_le hpos.ne')

theorem rounding_ofNat {n : Nat} (hpos : 0 < n) (hn : n < 2 ^ 53) :
    Rounding n (Dyadic.ofNat n) := by
  have hlog := (Nat.log2_lt hpos.ne').2 hn
  have hnormal := le_significand_ofNat hpos hn
  obtain ⟨k, hk⟩ : ∃ k, k = 52 - n.log2 := ⟨_, rfl⟩
  have hsum : n.log2 + k = 52 := by omega
  rw [← hk] at hnormal
  have hvalue : (n : ℚ) = (n * 2 ^ k : Nat) * 2 ^ (-(k : Int)) := by
    rw [zpow_neg, zpow_natCast]
    push_cast
    field_simp
  rw [Dyadic.ofNat, ← hk, hvalue]
  refine rounding_self (by positivity) ⟨?_, .inl hnormal, ?_, ?_⟩
  · calc n * 2 ^ k < 2 ^ (n.log2 + 1) * 2 ^ k :=
          Nat.mul_lt_mul_of_pos_right Nat.lt_log2_self (by positivity)
      _ = 2 ^ 53 := by rw [← Nat.pow_add, Nat.add_right_comm, hsum]
  · simp only
    omega
  · simp only
    omega

private theorem toFloat_toUInt64 {n : Nat} (hpos : 0 < n) (hn : n < 2 ^ 53) :
    n.toUInt64.toFloat = (Dyadic.ofNat n).toFloat := by
  have hlog := (Nat.log2_lt hpos.ne').2 hn
  have htoNat : n.toUInt64.toNat = n := Nat.mod_eq_of_lt (hn.trans (by decide))
  have hround : UnpackedFloat.ofNat Format.binary64 n = (Dyadic.ofNat n).unpacked := by
    have hcompare : compare (n : Int) 0 = .gt := Int.compare_eq_gt.2 (by omega)
    have htarget : shiftTarget n 0 = -((52 - n.log2 : Nat) : Int) := by
      rw [shiftTarget]
      omega
    rw [UnpackedFloat.ofNat, ofInt, UnpackedFloat.normalize, hcompare]
    simp only [Int.toNat_natCast, UnpackedFloat.round, decreaseExponent, targetExponent_eq, htarget]
    rw [show (0 - -((52 - n.log2 : Nat) : Int)).toNat = 52 - n.log2 by omega, Nat.shiftLeft_eq]
    refine (rounding_ofNat hpos hn).roundWithAccuracy
      (le_shiftTarget (.inl (le_significand_ofNat hpos hn))) ?_
    rw [Measures, Int.zero_sub, zpow_neg, zpow_natCast]
    push_cast
    field_simp
    ring
  change Float.ofModel (.pack (UnpackedFloat.ofNat Format.binary64 n.toUInt64.toNat)) = _
  rw [htoNat, hround]
  rfl

/-! ### Decimals -/

/-- A double is the positive number `m · 2 ^ e`. -/
def IsPositive (x : Float) (m : Nat) (e : Int) : Prop :=
  ∃ h, x.toModel.unpack = .finite .positive m e h

theorem isPositive_of_dyadic? {x : Float} (h : dyadic? x = some d) (hd : d.negative = false)
    (hm : d.significand ≠ 0) : IsPositive x d.significand d.exponent := by
  refine ⟨Nat.pos_of_ne_zero hm, ?_⟩
  rw [unpack_of_dyadic? h, Dyadic.unpacked, dif_neg hm, hd]
  rfl

theorem isPositive_toUInt64 {n : Nat} (hpos : 0 < n) (hn : n < 2 ^ 53) :
    IsPositive n.toUInt64.toFloat (n * 2 ^ (52 - n.log2)) (-((52 - n.log2 : Nat) : Int)) := by
  have h := rounding_ofNat hpos hn
  rw [toFloat_toUInt64 hpos hn]
  exact isPositive_of_dyadic? (dyadic?_toFloat h.canonical) h.positive h.pos.ne'

theorem Rounding.float_mul {x y : Float} (h : Rounding (m₁ * 2 ^ e₁ * (m₂ * 2 ^ e₂)) d)
    (hx : IsPositive x m₁ e₁) (hy : IsPositive y m₂ e₂) (hm : 2 ^ 52 ≤ m₁ * m₂) :
    x * y = d.toFloat := by
  obtain ⟨h₁, hx⟩ := hx
  obtain ⟨h₂, hy⟩ := hy
  change Float.ofModel (.pack (UnpackedFloat.mul Format.binary64 x.toModel.unpack
    y.toModel.unpack)) = _
  rw [hx, hy, h.mul h₁ h₂ hm]
  rfl

theorem Rounding.float_div {x y : Float} (h : Rounding (m₁ * 2 ^ e₁ / (m₂ * 2 ^ e₂)) d)
    (hx : IsPositive x m₁ e₁) (hy : IsPositive y m₂ e₂) : x / y = d.toFloat := by
  obtain ⟨h₁, hx⟩ := hx
  obtain ⟨h₂, hy⟩ := hy
  change Float.ofModel (.pack (UnpackedFloat.div Format.binary64 x.toModel.unpack
    y.toModel.unpack)) = _
  rw [hx, hy, h.div h₁ h₂]
  rfl

/-- Whether a double is a power of ten. -/
def isTenPow (x : Float) (e : Nat) : Bool :=
  match dyadic? x with
  | some d =>
    !d.negative && d.significand * 2 ^ d.exponent.toNat == 10 ^ e * 2 ^ (-d.exponent).toNat
  | none => false

private theorem isTenPow_exact : ∀ i : Fin Float.exactlyRepresentablePowersOfTen.size,
    isTenPow Float.exactlyRepresentablePowersOfTen[i] i = true := by
  decide

private theorem exists_of_isTenPow {x : Float} {e : Nat} (h : isTenPow x e = true) :
    ∃ m q, IsPositive x m q ∧ (m * 2 ^ q : ℚ) = 10 ^ e := by
  unfold isTenPow at h
  split at h
  · rename_i d hd
    simp only [Bool.and_eq_true, Bool.not_eq_true', beq_iff_eq] at h
    obtain ⟨hpositive, heq⟩ := h
    have hm : d.significand ≠ 0 := by
      intro hzero
      rw [hzero, Nat.zero_mul] at heq
      have : 0 < 10 ^ e * 2 ^ (-d.exponent).toNat := by positivity
      omega
    refine ⟨_, _, isPositive_of_dyadic? hd hpositive hm, ?_⟩
    have heq' : (d.significand : ℚ) * 2 ^ d.exponent.toNat = 10 ^ e * 2 ^ (-d.exponent).toNat := by
      exact_mod_cast heq
    have hexponent : d.exponent = (d.exponent.toNat : Int) - ((-d.exponent).toNat : Int) := by omega
    rw [hexponent, zpow_sub₀ two_ne_zero, zpow_natCast, zpow_natCast]
    field_simp
    rw [heq', mul_comm]
  · cases h

/-- What rounds to a double is in the range of doubles. -/
theorem Rounding.range (h : Rounding v d) : 2 ^ (-1075 : Int) ≤ v ∧ v < 2 ^ (1024 : Int) := by
  have hpow : (0 : ℚ) < 2 ^ d.exponent := by positivity
  have hpos : (1 : ℚ) ≤ d.significand := by exact_mod_cast h.pos
  have hlt : (d.significand : ℚ) + 1 ≤ 2 ^ 53 := by exact_mod_cast h.canonical.lt
  obtain ⟨hlow, hhigh, -⟩ := h.nearest
  rw [le_div_iff₀ hpow] at hlow
  rw [div_le_iff₀ hpow] at hhigh
  constructor
  · have hsplit : (2 : ℚ) ^ (-1075 : Int) = 1 / 2 * 2 ^ (-1074 : Int) := by
      rw [show (-1075 : Int) = -1 + -1074 from rfl, zpow_add₀ two_ne_zero, zpow_neg_one, one_div]
    calc (2 : ℚ) ^ (-1075 : Int) = 1 / 2 * 2 ^ (-1074 : Int) := hsplit
      _ ≤ 1 / 2 * 2 ^ d.exponent := by
        gcongr
        · norm_num
        · exact h.canonical.least
      _ ≤ (d.significand - 1 / 2) * 2 ^ d.exponent := by
        gcongr
        linarith
      _ ≤ v := hlow
  · have hsplit : (2 : ℚ) ^ 53 * 2 ^ (971 : Int) = 2 ^ (1024 : Int) := by
      rw [show (1024 : Int) = (53 : Nat) + 971 from rfl, zpow_add₀ two_ne_zero, zpow_natCast]
    calc v ≤ (d.significand + 1 / 2) * 2 ^ d.exponent := hhigh
      _ < 2 ^ 53 * 2 ^ d.exponent := by
        gcongr
        linarith
      _ ≤ 2 ^ 53 * 2 ^ (971 : Int) := by
        gcongr
        · norm_num
        · exact h.canonical.greatest
      _ = 2 ^ (1024 : Int) := hsplit

/-- The model reads a decimal as the double that it rounds to. -/
theorem Rounding.model_ofScientific {n : Nat} {x : Int} (hn : 0 < n) (h : Rounding (n * 10 ^ x) d) :
    UnpackedFloat.ofScientific Format.binary64 n x = d.unpacked := by
  obtain ⟨hlow, hhigh⟩ := h.range
  have hn' : (1 : ℚ) ≤ n := by exact_mod_cast hn
  have hlt (a b : Int) (h : (2 : ℚ) ^ a < 2 ^ b) : a < b := (zpow_lt_zpow_iff_right₀ one_lt_two).1 h
  -- the shortcuts to infinity and zero are for values that have no nearest double
  have hsmall : ¬ x > 2 ^ 11 := by
    intro hx
    obtain ⟨k, rfl⟩ : ∃ k : Nat, x = k := ⟨x.toNat, by omega⟩
    have hpow : (2 : ℚ) ^ (k : Int) ≤ n * 10 ^ (k : Int) := by
      rw [zpow_natCast, zpow_natCast]
      calc (2 : ℚ) ^ k ≤ 10 ^ k := by gcongr; norm_num
        _ ≤ n * 10 ^ k := le_mul_of_one_le_left (by positivity) hn'
    have := hlt _ _ (hpow.trans_lt hhigh)
    omega
  have hlarge : ¬ x < -((2 ^ 11 : Int) + n.log2) := by
    intro hx
    obtain ⟨k, rfl⟩ : ∃ k : Nat, x = -k := ⟨(-x).toNat, by omega⟩
    have hlog : (n : ℚ) < 2 ^ ((n.log2 + 1 : Nat) : Int) := by
      rw [zpow_natCast]
      exact_mod_cast Nat.lt_log2_self (n := n)
    have hpow : (n * 10 ^ (-(k : Int)) : ℚ) < 2 ^ (((n.log2 + 1 : Nat) : Int) + -(k : Int)) := by
      rw [zpow_add₀ two_ne_zero]
      calc (n * 10 ^ (-(k : Int)) : ℚ) < 2 ^ ((n.log2 + 1 : Nat) : Int) * 10 ^ (-(k : Int)) := by
            gcongr
        _ ≤ 2 ^ ((n.log2 + 1 : Nat) : Int) * 2 ^ (-(k : Int)) := by
            rw [zpow_neg, zpow_neg, zpow_natCast 10, zpow_natCast 2 k]
            gcongr
            norm_num
    have := hlt _ _ (hlow.trans_lt hpow)
    omega
  rw [UnpackedFloat.ofScientific, dif_neg hn.ne', if_neg hsmall, if_neg hlarge]
  split
  · rename_i hx
    obtain ⟨k, rfl⟩ : ∃ k : Nat, x = k := ⟨x.toNat, by omega⟩
    refine Rounding.mul ?_ _ _ ?_
    · convert h using 1
      rw [Nat.shiftLeft_eq]
      push_cast
      rw [zpow_neg, zpow_natCast, zpow_natCast]
      field_simp
      simp
    · rw [Nat.shiftLeft_eq]
      calc 2 ^ 52 ≤ 1 * 2 ^ 53 * 1 := by decide
        _ ≤ n * 2 ^ 53 * 10 ^ (k : Int).toNat := by
          gcongr
          · exact hn
          · exact Nat.one_le_pow _ _ (by decide)
  · rename_i hx
    obtain ⟨k, rfl⟩ : ∃ k : Nat, x = -k := ⟨(-x).toNat, by omega⟩
    refine Rounding.div ?_ _ _
    convert h using 1
    simp [zpow_neg, div_eq_mul_inv]

/-- **A decimal is read as the double that it rounds to.** -/
theorem Rounding.ofScientific {n e : Nat} {s : Bool} (hn : 0 < n)
    (h : Rounding (n * 10 ^ (if s then -(e : Int) else e)) d) :
    Float.ofScientific n s e = d.toFloat := by
  unfold Float.ofScientific
  split
  · rename_i hfast
    obtain ⟨m, q, hpower, hvalue⟩ := exists_of_isTenPow
      (isTenPow_exact ⟨e, by simp [Float.exactlyRepresentablePowersOfTen]; omega⟩)
    -- on the fast path both factors are exact, so one rounding remains
    have hnat := isPositive_toUInt64 hn hfast.1
    have hn' : ((n * 2 ^ (52 - n.log2) : Nat) : ℚ) * 2 ^ (-((52 - n.log2 : Nat) : Int)) = n := by
      rw [zpow_neg, zpow_natCast]
      push_cast
      field_simp
    cases s with
    | true =>
      refine Rounding.float_div ?_ hnat hpower
      rw [hn', hvalue, div_eq_mul_inv]
      simpa [zpow_neg] using h
    | false =>
      refine Rounding.float_mul ?_ hnat hpower ?_
      · rw [hn', hvalue]
        simpa using h
      · obtain ⟨hm, -⟩ := hpower
        exact (le_significand_ofNat hn hfast.1).trans (Nat.le_mul_of_pos_right _ hm)
  · have hexponent : (if s then Int.negOfNat e else Int.ofNat e) = if s then -(e : Int) else e := by
      cases s
      · rfl
      · exact Int.negOfNat_eq
    change Float.ofModel (.pack (UnpackedFloat.ofScientific Format.binary64 n
      (if s then Int.negOfNat e else Int.ofNat e))) = _
    rw [hexponent, h.model_ofScientific hn]
    rfl

/-! ### Doubles without a fraction -/

/-- A double **has no fraction**: it is a whole number or not finite. -/
def NoFraction (x : Float) : Prop := ∀ d, dyadic? x = some d → d.isWhole = true

theorem Dyadic.isWhole_of_nonneg (h : 0 ≤ d.exponent) : d.isWhole = true := by
  obtain ⟨negative, significand, exponent⟩ := d
  cases exponent with
  | ofNat k => rfl
  | negSucc k => exact absurd h (by simp only; omega)

theorem Dyadic.isWhole_of_eq_zero (h : d.significand = 0) : d.isWhole = true := by
  obtain ⟨negative, significand, exponent⟩ := d
  cases exponent with
  | ofNat k => rfl
  | negSucc k => simp_all [Dyadic.isWhole]

/-- Zero has no fraction, however it is written. -/
theorem noFraction_of_zero {x : Float} (h : dyadic? x = some ⟨false, 0, -1074⟩) : NoFraction x := by
  intro d hd
  cases h.symm.trans hd
  exact Dyadic.isWhole_of_eq_zero rfl

theorem isWhole_ofNat (n : Nat) : (Dyadic.ofNat n).isWhole = true := by
  rw [Dyadic.ofNat]
  cases 52 - n.log2 with
  | zero => rfl
  | succ k =>
    change (n * 2 ^ (k + 1) % 2 ^ (k + 1) == 0) = true
    rw [Nat.mul_mod_left]
    rfl

/-- A double whose significand fills its bits and whose exponent is not negative has no fraction. -/
private theorem noFraction_pack (hm : 0 < m) (hm₁ : 2 ^ 52 ≤ m) (hm₂ : m < 2 ^ 53) (hq : 0 ≤ q) :
    NoFraction (.ofModel (.pack (.finite .positive m q hm))) := by
  intro d hd
  by_cases hfinite : q ≤ 971
  · have hunpacked : (.finite .positive m q hm : UnpackedFloat) =
      Dyadic.unpacked ⟨false, m, q⟩ := by
      rw [Dyadic.unpacked, dif_neg hm.ne']
      rfl
    have hcanonical : (⟨false, m, q⟩ : Dyadic).Canonical :=
      ⟨hm₂, .inl hm₁, by simp only; omega, hfinite⟩
    rw [hunpacked] at hd
    cases (dyadic?_toFloat hcanonical).symm.trans hd
    exact Dyadic.isWhole_of_nonneg hq
  · have hpack : UnpackedFloat.pack Format.binary64 (.finite .positive m q hm) =
        UnpackedFloat.pack Format.binary64 (.infinity .positive) :=
      if_pos (by change 2 ^ 11 ≤ (q + 1023 + 52).toNat + 1; omega)
    have hinfinite : dyadic? (.ofModel (.pack (.infinity .positive))) = none := rfl
    rw [Float.Model.pack] at hd
    simp only [hpack] at hd
    cases hd.symm.trans hinfinite

/-- A natural number has no fraction as a double, however large it is. -/
theorem noFraction_ofNat (n : Nat) : NoFraction (Float.ofNat n) := by
  change NoFraction (Float.ofScientific n false 0)
  rcases Nat.eq_zero_or_pos n with rfl | hpos
  · exact noFraction_of_zero rfl
  by_cases hn : n < 2 ^ 53
  · have h := rounding_ofNat hpos hn
    have heq : Float.ofScientific n false 0 = (Dyadic.ofNat n).toFloat :=
      Rounding.ofScientific hpos (by simpa using h)
    intro d hd
    rw [heq] at hd
    cases (dyadic?_toFloat h.canonical).symm.trans hd
    exact isWhole_ofNat n
  · have hmodel : UnpackedFloat.ofScientific Format.binary64 n 0 =
        roundWithAccuracy Format.binary64 .positive (n <<< 53 * 1) (-53 + 0) .exact := by
      rw [UnpackedFloat.ofScientific, dif_neg hpos.ne', if_neg (by decide),
        if_neg (by change ¬ (0 : Int) < -(2 ^ 11 + n.log2); omega), if_pos (by decide)]
      rfl
    have hslow : Float.ofScientific n false 0 =
        .ofModel (.pack (UnpackedFloat.ofScientific Format.binary64 n 0)) :=
      dif_neg fun h => hn h.1
    have hM : 2 ^ 106 ≤ n <<< 53 * 1 := by
      rw [Nat.shiftLeft_eq]
      omega
    have hlog := (Nat.le_log2 (by omega)).2 hM
    obtain ⟨m, q, hm, hround, hm₁, hm₂, hq⟩ :=
      exists_roundWithAccuracy_eq .positive ((by decide : 2 ^ 52 ≤ 2 ^ 106).trans hM)
        (by decide : -1074 ≤ (-53 + 0 : Int))
    rw [hslow, hmodel, hround]
    exact noFraction_pack hm hm₁ hm₂ (by omega)

theorem NoFraction.neg {x : Float} (h : NoFraction x) : NoFraction (-x) := by
  intro d hd
  cases hx : dyadic? x with
  | none =>
    have hneg : -x = .ofModel (.pack x.toModel.unpack.neg) := rfl
    have hnone : dyadic? (.ofModel (.pack .notANumber)) = none ∧
        dyadic? (.ofModel (.pack (.infinity .negative))) = none ∧
        dyadic? (.ofModel (.pack (.infinity .positive))) = none := by decide
    rcases unpack_of_dyadic?_eq_none hx with hx | ⟨s, hx⟩
    · rw [hneg, hx, UnpackedFloat.neg, hnone.1] at hd
      cases hd
    · cases s <;> rw [hneg, hx, UnpackedFloat.neg] at hd
      · exact absurd (hd.symm.trans hnone.2.2) nofun
      · exact absurd (hd.symm.trans hnone.2.1) nofun
  | some d' =>
    rw [dyadic?_neg hx] at hd
    cases hd
    exact h d' hx

end ChartNet.Number
