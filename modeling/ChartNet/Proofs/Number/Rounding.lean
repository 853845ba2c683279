import Mathlib
import ChartNet.Proofs.Number.Doubles

/-!
# Rounding

Operations on doubles cut the exact result off and **round** it to the nearest double; of two
equally near ones the even is taken. A mantissa with two more bits stands for the exact result: one
is the next bit, the other tells whether anything is left after it. What is nearest to a double in
exact arithmetic on rational numbers is therefore what the operations give.
-/

namespace ChartNet.Number

open Float.Model (Format UnpackedFloat totalExponent)
open Float.Model.UnpackedFloat

/-! ### Mantissas -/

/-- An accuracy **measures** the part that a mantissa leaves out, in units of the last place. -/
def Measures : Accuracy → ℚ → Prop
  | .exact, f => f = 0
  | .inexact .lt, f => 0 < f ∧ f < 1 / 2
  | .inexact .eq, f => f = 1 / 2
  | .inexact .gt, f => 1 / 2 < f ∧ f < 1

/-- An extended mantissa **represents** a number. -/
def Represents (em : ExtendedMantissa) (u : ℚ) : Prop :=
  Measures em.accuracy (u - em.mantissa)

theorem represents_ofMantissaAndAccuracy {m : Nat} {acc : Accuracy} {u : ℚ}
    (h : Measures acc (u - m)) : Represents (.ofMantissaAndAccuracy m acc) u := by
  cases acc with
  | exact => exact h
  | inexact o => cases o <;> exact h

/-- Shifting halves the number. -/
theorem Represents.shiftRightOne {em : ExtendedMantissa} {u : ℚ} (h : Represents em u) :
    Represents em.shiftRightOne (u / 2) := by
  obtain ⟨m, r, s⟩ := em
  have hm : (m : ℚ) = 2 * (m / 2 : Nat) + (m % 2 : Nat) := by
    exact_mod_cast (Nat.div_add_mod m 2).symm
  simp only [Represents, ExtendedMantissa.shiftRightOne] at h ⊢
  rcases Nat.mod_two_eq_zero_or_one m with hp | hp <;> rw [hp] at hm <;> push_cast at hm <;>
    cases r <;> cases s <;> simp [hp, ExtendedMantissa.accuracy, Measures] at h ⊢ <;>
    (try constructor) <;> linarith

theorem Represents.shiftRight {em : ExtendedMantissa} {u : ℚ} (h : Represents em u) (n : Nat) :
    Represents (em >>> n) (u / 2 ^ n) := by
  induction n with
  | zero =>
    rw [pow_zero, div_one]
    exact h
  | succ n ih =>
    have := ih.shiftRightOne
    rw [div_div, ← pow_succ] at this
    exact this

/-- A number is **nearest** to a whole number; between two it is the even. -/
def Nearest (m : Nat) (u : ℚ) : Prop :=
  m - 1 / 2 ≤ u ∧ u ≤ m + 1 / 2 ∧ (m % 2 = 0 ∨ (m - 1 / 2 < u ∧ u < m + 1 / 2))

/-- A mantissa is rounded to what is nearest to the number. -/
theorem Represents.roundedMantissa {em : ExtendedMantissa} {u : ℚ} {m : Nat} (h : Represents em u)
    (hm : Nearest m u) : em.roundedMantissa = m := by
  obtain ⟨k, r, s⟩ := em
  obtain ⟨hlow, hhigh, htie⟩ := hm
  have hint {a b : Int} (h : (a : ℚ) < b) : a < b := by exact_mod_cast h
  have hint' {a b : Int} (h : (a : ℚ) ≤ b) : a ≤ b := by exact_mod_cast h
  simp only [Represents] at h
  cases r <;> cases s <;> simp only [ExtendedMantissa.accuracy, Measures] at h <;>
    simp only [ExtendedMantissa.roundedMantissa, ExtendedMantissa.accuracy,
      Accuracy.roundToNearestEven]
  · have h1 : (2 * m - 1 : Int) ≤ 2 * k := hint' (by push_cast; linarith)
    have h2 : (2 * k : Int) ≤ 2 * m + 1 := hint' (by push_cast; linarith)
    omega
  · have h1 : (2 * m - 1 : Int) < 2 * k + 1 := hint (by push_cast; linarith)
    have h2 : (2 * k : Int) < 2 * m + 1 := hint (by push_cast; linarith)
    omega
  · have h1 : (2 * m - 1 : Int) ≤ 2 * k + 1 := hint' (by push_cast; linarith)
    have h2 : (2 * k + 1 : Int) ≤ 2 * m + 1 := hint' (by push_cast; linarith)
    rcases htie with heven | ⟨h3, h4⟩
    · omega
    · have h3 : (2 * m - 1 : Int) < 2 * k + 1 := hint (by push_cast; linarith)
      have h4 : (2 * k + 1 : Int) < 2 * m + 1 := hint (by push_cast; linarith)
      omega
  · have h1 : (2 * m - 1 : Int) < 2 * k + 2 := hint (by push_cast; linarith)
    have h2 : (2 * k + 1 : Int) < 2 * m + 1 := hint (by push_cast; linarith)
    omega

/-- Rounding goes to one of the two neighbours. -/
theorem roundedMantissa_bounds (em : ExtendedMantissa) :
    em.mantissa ≤ em.roundedMantissa ∧ em.roundedMantissa ≤ em.mantissa + 1 := by
  obtain ⟨k, r, s⟩ := em
  cases r <;> cases s <;>
    simp only [ExtendedMantissa.roundedMantissa, ExtendedMantissa.accuracy,
      Accuracy.roundToNearestEven] <;>
    omega

theorem Measures.bounds {acc : Accuracy} {f : ℚ} (h : Measures acc f) : 0 ≤ f ∧ f < 1 := by
  cases acc with
  | exact =>
    simp only [Measures] at h
    constructor <;> linarith
  | inexact o =>
    cases o <;> simp only [Measures] at h <;> constructor <;> linarith

/-! ### What rounds to a double -/

/-- A number **rounds** to a positive canonical dyadic number. Below a power of two the neighbour is
only half as far. -/
structure Rounding (v : ℚ) (d : Dyadic) : Prop where
  positive : d.negative = false
  pos : 0 < d.significand
  canonical : d.Canonical
  nearest : Nearest d.significand (v / 2 ^ d.exponent)
  below : d.significand = 2 ^ 52 → -1074 < d.exponent →
    (2 ^ 52 - 1 / 4 : ℚ) ≤ v / 2 ^ d.exponent

variable {v : ℚ} {d : Dyadic} {m M : Nat} {q E : Int} {acc : Accuracy}

theorem Rounding.unpacked (h : Rounding v d) :
    d.unpacked = .finite .positive d.significand d.exponent h.pos := by
  rw [Dyadic.unpacked, dif_neg h.pos.ne', h.positive]
  rfl

/-- The exponent that a mantissa is shifted to. -/
def shiftTarget (M : Nat) (E : Int) : Int := max (M.log2 + 1 + E - 53) (-1074)

theorem targetExponent_eq (M : Nat) (E : Int) :
    Format.binary64.targetExponent (totalExponent M E) = shiftTarget M E := rfl

private theorem lt_of_two_zpow_lt {a b : Int} (h : (2 : ℚ) ^ a < 2 ^ b) : a < b :=
  (zpow_lt_zpow_iff_right₀ one_lt_two).1 h

/-- The leading bit of a mantissa is that of the number. -/
theorem Measures.lt_two_zpow (h : Measures acc (v / 2 ^ E - M)) : v < 2 ^ (M.log2 + 1 + E) := by
  have hM : (M : ℚ) + 1 ≤ 2 ^ (M.log2 + 1) := by exact_mod_cast Nat.lt_log2_self (n := M)
  have hlt : v / 2 ^ E < 2 ^ (M.log2 + 1) := by linarith [h.bounds.2]
  rw [div_lt_iff₀ (by positivity)] at hlt
  rw [zpow_add₀ two_ne_zero]
  exact_mod_cast hlt

theorem Measures.two_zpow_le (h : Measures acc (v / 2 ^ E - M)) (hM : M ≠ 0) :
    2 ^ (M.log2 + E) ≤ v := by
  have hM' : (2 : ℚ) ^ M.log2 ≤ M := by exact_mod_cast Nat.log2_self_le hM
  have hle : (2 : ℚ) ^ M.log2 ≤ v / 2 ^ E := by linarith [h.bounds.1]
  rw [le_div_iff₀ (by positivity)] at hle
  rw [zpow_add₀ two_ne_zero]
  exact_mod_cast hle

/-- A number with at most 53 bits above an exponent is shifted no further. -/
theorem Measures.shiftTarget_le (h : Measures acc (v / 2 ^ E - M)) (hE : E ≤ shiftTarget M E)
    (hq : -1074 ≤ q) (hv : v < 2 ^ (53 + q)) : shiftTarget M E ≤ q := by
  rw [shiftTarget] at hE ⊢
  by_cases hM : M = 0
  · -- no bit leads in zero, but then its exponent is that of the least doubles
    rw [hM, Nat.log2_zero] at hE ⊢
    omega
  · have := lt_of_two_zpow_lt ((h.two_zpow_le hM).trans_lt hv)
    omega

/-- A number with at least 53 bits above an exponent is shifted there. -/
theorem Measures.le_shiftTarget (h : Measures acc (v / 2 ^ E - M)) (hv : 2 ^ (52 + q) ≤ v) :
    q ≤ shiftTarget M E := by
  have := lt_of_two_zpow_lt (hv.trans_lt h.lt_two_zpow)
  rw [shiftTarget]
  omega

theorem Rounding.lt_two_zpow (h : Rounding v d) : v < 2 ^ (53 + d.exponent) := by
  have hpow : (0 : ℚ) < 2 ^ d.exponent := by positivity
  have hm : (d.significand : ℚ) + 1 ≤ 2 ^ 53 := by exact_mod_cast h.canonical.lt
  calc v ≤ (d.significand + 1 / 2) * 2 ^ d.exponent := (div_le_iff₀ hpow).1 h.nearest.2.1
    _ < 2 ^ (53 : Int) * 2 ^ d.exponent := by
        apply mul_lt_mul_of_pos_right _ hpow
        norm_num at hm ⊢
        linarith
    _ = 2 ^ (53 + d.exponent) := (zpow_add₀ two_ne_zero _ _).symm

/-- Just below a power of two a number rounds up to it, and rounding one place before carries. -/
theorem Rounding.carries (h : Rounding v d) (hleast : d.exponent ≠ -1074)
    (hv : v < 2 ^ (52 + d.exponent)) :
    d.significand = 2 ^ 52 ∧ 2 ^ (51 + d.exponent) ≤ v ∧
      Nearest (2 ^ 53) (v / 2 ^ (d.exponent - 1)) := by
  have hpow : (0 : ℚ) < 2 ^ d.exponent := by positivity
  have hu : v / 2 ^ d.exponent < 2 ^ 52 := by
    rw [div_lt_iff₀ hpow]
    rw [zpow_add₀ two_ne_zero] at hv
    exact_mod_cast hv
  have hm : d.significand = 2 ^ 52 := by
    have hlow := h.nearest.1
    have hlt : (d.significand : ℚ) < 2 ^ 52 + 1 := by linarith
    have hlt' : d.significand < 2 ^ 52 + 1 := by exact_mod_cast hlt
    have := h.canonical.normal.resolve_right hleast
    omega
  have hbelow := h.below hm (by have := h.canonical.least; omega)
  have hhalf : v / 2 ^ (d.exponent - 1) = 2 * (v / 2 ^ d.exponent) := by
    rw [zpow_sub_one₀ two_ne_zero]
    field_simp
  refine ⟨hm, ?_, ?_, ?_, .inl rfl⟩
  · rw [zpow_add₀ two_ne_zero, ← le_div_iff₀ hpow]
    norm_num at hbelow ⊢
    linarith
  · rw [hhalf]
    push_cast
    linarith
  · rw [hhalf]
    push_cast
    linarith

/-- A number is shifted to the exponent of the double that it rounds to. Just below a power of two
it is shifted one place less, and rounding carries. -/
theorem Rounding.shiftTarget_cases (h : Rounding v d) (hE : E ≤ shiftTarget M E)
    (hacc : Measures acc (v / 2 ^ E - M)) :
    shiftTarget M E = d.exponent ∨ shiftTarget M E = d.exponent - 1 ∧ d.significand = 2 ^ 52 ∧
      Nearest (2 ^ 53) (v / 2 ^ (d.exponent - 1)) := by
  have hle : shiftTarget M E ≤ d.exponent :=
    hacc.shiftTarget_le hE h.canonical.least h.lt_two_zpow
  by_cases hleast : d.exponent = -1074
  · have : -1074 ≤ shiftTarget M E := le_max_right _ _
    exact .inl (by omega)
  by_cases h52 : 2 ^ (52 + d.exponent) ≤ v
  · exact .inl (le_antisymm hle (hacc.le_shiftTarget h52))
  obtain ⟨hm, h51, hcarry⟩ := h.carries hleast (not_le.1 h52)
  refine .inr ⟨le_antisymm ?_ ?_, hm, hcarry⟩
  · have hleast' := h.canonical.least
    refine hacc.shiftTarget_le hE (by omega) ?_
    rw [show 53 + (d.exponent - 1) = 52 + d.exponent by omega]
    exact not_le.1 h52
  · refine hacc.le_shiftTarget ?_
    rwa [show 52 + (d.exponent - 1) = 51 + d.exponent by omega]

private theorem shiftToTargetExponent_eq (hE : E ≤ shiftTarget M E)
    (hacc : Measures acc (v / 2 ^ E - M)) :
    (shiftToTargetExponent Format.binary64 M E acc).2 = shiftTarget M E ∧
      Represents (shiftToTargetExponent Format.binary64 M E acc).1 (v / 2 ^ shiftTarget M E) := by
  simp only [shiftToTargetExponent, shiftToExponent, targetExponent_eq]
  refine ⟨by omega, ?_⟩
  have h := (represents_ofMantissaAndAccuracy hacc).shiftRight (shiftTarget M E - E).toNat
  rw [div_div, ← zpow_natCast, ← zpow_add₀ two_ne_zero] at h
  rwa [show E + ((shiftTarget M E - E).toNat : Int) = shiftTarget M E by omega] at h

private theorem roundWithAccuracy_of_shift {r : Nat} {e : Int} (s : Sign)
    (hr : (shiftToTargetExponent Format.binary64 M E acc).1.roundedMantissa = r)
    (he : (shiftToTargetExponent Format.binary64 M E acc).2 = e)
    (hm : (shiftToTargetExponent Format.binary64 r e .exact).1.mantissa = m)
    (hq : (shiftToTargetExponent Format.binary64 r e .exact).2 = q) (hpos : 0 < m) :
    roundWithAccuracy Format.binary64 s M E acc = .finite s m q hpos := by
  subst hr he hm hq
  exact dif_neg hpos.ne'

/-- A rounded mantissa that fits stays. -/
private theorem roundWithAccuracy_of_rounded (s : Sign)
    (hr : (shiftToTargetExponent Format.binary64 M E acc).1.roundedMantissa = m)
    (he : (shiftToTargetExponent Format.binary64 M E acc).2 = q) (hpos : 0 < m) (hm : m < 2 ^ 53)
    (hnormal : 2 ^ 52 ≤ m ∨ q = -1074) (hq : -1074 ≤ q) :
    roundWithAccuracy Format.binary64 s M E acc = .finite s m q hpos := by
  have hstays : (shiftTarget m q - q).toNat = 0 := by
    have hlog := (Nat.log2_lt hpos.ne').2 hm
    rw [shiftTarget]
    rcases hnormal with hnormal | hnormal
    · have := (Nat.le_log2 hpos.ne').2 hnormal
      omega
    · omega
  refine roundWithAccuracy_of_shift s hr he ?_ ?_ hpos
  · rw [shiftToTargetExponent, shiftToExponent, targetExponent_eq, hstays]
    rfl
  · rw [shiftToTargetExponent, shiftToExponent, targetExponent_eq, hstays]
    exact Int.add_zero q

/-- A rounded mantissa that carries is shifted. -/
private theorem roundWithAccuracy_of_carry (s : Sign)
    (hr : (shiftToTargetExponent Format.binary64 M E acc).1.roundedMantissa = 2 ^ 53)
    (he : (shiftToTargetExponent Format.binary64 M E acc).2 = q) (hq : -1074 ≤ q) :
    roundWithAccuracy Format.binary64 s M E acc = .finite s (2 ^ 52) (q + 1) (by decide) := by
  have hcarries : (shiftTarget (2 ^ 53) q - q).toNat = 1 := by
    rw [shiftTarget, Nat.log2_two_pow]
    omega
  refine roundWithAccuracy_of_shift s hr he ?_ ?_ (by decide)
  · rw [shiftToTargetExponent, shiftToExponent, targetExponent_eq, hcarries]
    rfl
  · rw [shiftToTargetExponent, shiftToExponent, targetExponent_eq, hcarries]
    rfl

/-- **A number is rounded to the double that it rounds to.** -/
theorem Rounding.roundWithAccuracy (h : Rounding v d) (hE : E ≤ shiftTarget M E)
    (hacc : Measures acc (v / 2 ^ E - M)) :
    roundWithAccuracy Format.binary64 .positive M E acc = d.unpacked := by
  obtain ⟨hexponent, hrepresents⟩ := shiftToTargetExponent_eq hE hacc
  have hleast : -1074 ≤ shiftTarget M E := le_max_right _ _
  rw [h.unpacked]
  rcases h.shiftTarget_cases hE hacc with htarget | ⟨htarget, hm, hcarry⟩
  · rw [htarget] at hexponent hrepresents
    exact roundWithAccuracy_of_rounded _ (hrepresents.roundedMantissa h.nearest) hexponent h.pos
      h.canonical.lt h.canonical.normal h.canonical.least
  · rw [htarget] at hexponent hrepresents hleast
    rw [roundWithAccuracy_of_carry _ (hrepresents.roundedMantissa hcarry) hexponent hleast]
    simp [hm]

/-- Rounding a mantissa with enough bits gives one that fills its bits. -/
theorem exists_roundWithAccuracy_eq (s : Sign) (hM : 2 ^ 52 ≤ M) (hE : -1074 ≤ E) :
    ∃ m q, ∃ hpos : 0 < m, roundWithAccuracy Format.binary64 s M E .exact = .finite s m q hpos ∧
      2 ^ 52 ≤ m ∧ m < 2 ^ 53 ∧ M.log2 - 52 + E ≤ q := by
  have hM0 : M ≠ 0 := by omega
  have hlog := (Nat.le_log2 hM0).2 hM
  have htarget : shiftTarget M E = M.log2 - 52 + E := by
    rw [shiftTarget]
    omega
  obtain ⟨hexponent, hrepresents⟩ :=
    shiftToTargetExponent_eq (v := M * 2 ^ E) (by omega : E ≤ shiftTarget M E)
      (show Measures .exact _ by rw [Measures]; field_simp; ring)
  rw [htarget] at hexponent hrepresents
  obtain ⟨hlow, hhigh⟩ := hrepresents.bounds
  have hu : ((M * 2 ^ E) / 2 ^ ((M.log2 : Int) - 52 + E) : ℚ) = M / 2 ^ (M.log2 - 52) := by
    rw [show (M.log2 : Int) - 52 = (M.log2 - 52 : Nat) by omega, zpow_add₀ two_ne_zero,
      zpow_natCast]
    field_simp
  rw [hu] at hlow hhigh
  have hu₁ : (2 ^ 52 : ℚ) ≤ M / 2 ^ (M.log2 - 52) := by
    rw [le_div_iff₀ (by positivity), ← pow_add, Nat.add_sub_of_le hlog]
    exact_mod_cast Nat.log2_self_le hM0
  have hu₂ : (M / 2 ^ (M.log2 - 52) : ℚ) < 2 ^ 53 := by
    rw [div_lt_iff₀ (by positivity), ← pow_add, show 53 + (M.log2 - 52) = M.log2 + 1 by omega]
    exact_mod_cast Nat.lt_log2_self (n := M)
  have hrounded := roundedMantissa_bounds (shiftToTargetExponent Format.binary64 M E .exact).1
  generalize hem : (shiftToTargetExponent Format.binary64 M E .exact).1 = em at *
  have hk₁ : 2 ^ 52 < em.mantissa + 1 := by
    have : (2 ^ 52 : ℚ) < em.mantissa + 1 := by linarith
    exact_mod_cast this
  have hk₂ : em.mantissa < 2 ^ 53 := by
    have : (em.mantissa : ℚ) < 2 ^ 53 := by linarith
    exact_mod_cast this
  -- rounding up may carry into one more bit, which shifts the exponent
  by_cases hcarry : em.roundedMantissa = 2 ^ 53
  · exact ⟨2 ^ 52, _, by decide,
      roundWithAccuracy_of_carry s (hem ▸ hcarry) hexponent (by omega),
        by omega, by omega, by omega⟩
  · exact ⟨em.roundedMantissa, _, by omega,
      roundWithAccuracy_of_rounded s (hem ▸ rfl) hexponent (by omega) (by omega) (.inl (by omega))
        (by omega), by omega, by omega, by omega⟩

/-- A mantissa with enough bits is not shifted to a smaller exponent. -/
theorem le_shiftTarget (h : 2 ^ 52 ≤ M ∨ E ≤ -1074) : E ≤ shiftTarget M E := by
  rw [shiftTarget]
  rcases h with h | h
  · have := (Nat.le_log2 (n := M) (by omega)).2 h
    omega
  · omega

/-! ### Products and quotients -/

variable {m₁ m₂ : Nat} {e₁ e₂ : Int}

/-- A product is rounded. -/
theorem Rounding.mul (h : Rounding (m₁ * 2 ^ e₁ * (m₂ * 2 ^ e₂)) d) (h₁ : 0 < m₁) (h₂ : 0 < m₂)
    (hm : 2 ^ 52 ≤ m₁ * m₂) :
    mul Format.binary64 (.finite .positive m₁ e₁ h₁) (.finite .positive m₂ e₂ h₂) = d.unpacked := by
  refine h.roundWithAccuracy (le_shiftTarget (.inl hm)) ?_
  rw [Measures, zpow_add₀ two_ne_zero]
  push_cast
  field_simp
  ring

private theorem measures_accuracyOfFraction {a b : Nat} (h : a < b) :
    Measures (accuracyOfFraction a b) (a / b) := by
  have hb : (0 : ℚ) < b := by exact_mod_cast (Nat.zero_le a).trans_lt h
  rw [accuracyOfFraction]
  split
  · rename_i ha
    simp [Measures, ha]
  · rename_i ha
    have ha' : (0 : ℚ) < a := by exact_mod_cast Nat.pos_of_ne_zero ha
    have hlt : (a : ℚ) < b := by exact_mod_cast h
    cases hcompare : compare (2 * a) b with
    | lt =>
      have : (2 * a : ℚ) < b := by exact_mod_cast Nat.compare_eq_lt.1 hcompare
      refine ⟨by positivity, ?_⟩
      rw [div_lt_div_iff₀ hb two_pos]
      linarith
    | eq =>
      have : (2 * a : ℚ) = b := by exact_mod_cast Nat.compare_eq_eq.1 hcompare
      rw [Measures, div_eq_div_iff hb.ne' two_ne_zero]
      linarith
    | gt =>
      have : (b : ℚ) < 2 * a := by exact_mod_cast Nat.compare_eq_gt.1 hcompare
      refine ⟨?_, (div_lt_one hb).2 hlt⟩
      rw [div_lt_div_iff₀ two_pos hb]
      linarith

/-- A quotient is rounded. -/
theorem Rounding.div (h : Rounding (m₁ * 2 ^ e₁ / (m₂ * 2 ^ e₂)) d) (h₁ : 0 < m₁) (h₂ : 0 < m₂) :
    div Format.binary64 (.finite .positive m₁ e₁ h₁) (.finite .positive m₂ e₂ h₂) = d.unpacked := by
  have htarget : Format.binary64.targetExponent (totalExponent m₁ e₁ - totalExponent m₂ e₂) =
      max (m₁.log2 + 1 + e₁ - (m₂.log2 + 1 + e₂) - 53) (-1074) := rfl
  simp only [UnpackedFloat.div, divCore, htarget]
  generalize ht : min (e₁ - e₂) (max (m₁.log2 + 1 + e₁ - (m₂.log2 + 1 + e₂) - 53) (-1074)) = t
  obtain ⟨k, hk⟩ : ∃ k : Nat, e₁ - e₂ - t = k := ⟨(e₁ - e₂ - t).toNat, by omega⟩
  rw [hk, Int.toNat_natCast, Nat.shiftLeft_eq]
  -- the quotient of the significands has enough bits, and its remainder tells where the value lies
  refine h.roundWithAccuracy (le_shiftTarget ?_) ?_
  · by_cases hleast : t ≤ -1074
    · exact .inr hleast
    · left
      rw [Nat.le_div_iff_mul_le h₂]
      have hlog₁ := Nat.log2_self_le h₁.ne'
      have hlog₂ := Nat.lt_log2_self (n := m₂)
      calc 2 ^ 52 * m₂ ≤ 2 ^ 52 * 2 ^ (m₂.log2 + 1) := Nat.mul_le_mul_left _ hlog₂.le
        _ = 2 ^ (52 + (m₂.log2 + 1)) := (Nat.pow_add _ _ _).symm
        _ ≤ 2 ^ (m₁.log2 + k) := Nat.pow_le_pow_right two_pos (by omega)
        _ = 2 ^ m₁.log2 * 2 ^ k := Nat.pow_add _ _ _
        _ ≤ m₁ * 2 ^ k := Nat.mul_le_mul_right _ hlog₁
  · have hm₂ : (m₂ : ℚ) ≠ 0 := by exact_mod_cast h₂.ne'
    have hdiv := Nat.div_add_mod (m₁ * 2 ^ k) m₂
    have hdiv' : (m₂ : ℚ) * (m₁ * 2 ^ k / m₂ : Nat) + (m₁ * 2 ^ k % m₂ : Nat) = m₁ * 2 ^ k := by
      exact_mod_cast hdiv
    have hpow : (2 : ℚ) ^ e₁ = 2 ^ e₂ * 2 ^ t * 2 ^ k := by
      rw [← zpow_natCast, ← zpow_add₀ two_ne_zero, ← zpow_add₀ two_ne_zero]
      congr 1
      omega
    have hvalue : (m₁ * 2 ^ e₁ / (m₂ * 2 ^ e₂) : ℚ) / 2 ^ t - (m₁ * 2 ^ k / m₂ : Nat) =
        (m₁ * 2 ^ k % m₂ : Nat) / m₂ := by
      rw [hpow]
      field_simp
      linarith
    rw [hvalue]
    exact measures_accuracyOfFraction (Nat.mod_lt _ h₂)

end ChartNet.Number
