import Mathlib
import ChartNet.Number.Text
import ChartNet.Proofs.Number.Reading

/-!
# The fewest digits that read back

The search for the **shortest** decimal of a double works on natural numbers; here its intervals are
those of rational numbers. Seventeen digits always suffice: on their grid a step is smaller than the
rounding interval. A whole number is found at the latest on the grid of its own digits, so its
decimal has no fraction.
-/

namespace ChartNet.Number

/-! ### Intervals -/

/-- An interval **spans** rational numbers: its ends and its value over the denominator. -/
structure Interval.Spans (i : Interval) (a v b : ℚ) : Prop where
  pos : 0 < i.denominator
  low : (i.low : ℚ) = a * i.denominator
  value : (i.value : ℚ) = v * i.denominator
  high : (i.high : ℚ) = b * i.denominator

/-- A number lies **inside**; the ends count if the interval is closed. -/
def Inside (closed : Bool) (a b x : ℚ) : Prop :=
  a ≤ x ∧ x ≤ b ∧ (closed = true ∨ a < x ∧ x < b)

variable {i : Interval} {a v b : ℚ}

/-- The test of a candidate is exact. -/
theorem Interval.Spans.hits_iff (h : i.Spans a v b) (n : Nat) :
    i.hits n = true ↔ Inside i.closed a b n := by
  have hpos : (0 : ℚ) < i.denominator := by exact_mod_cast h.pos
  have hle₁ : i.low ≤ n * i.denominator ↔ a ≤ n := by
    rw [← Nat.cast_le (α := ℚ), Nat.cast_mul, h.low, mul_le_mul_iff_left₀ hpos]
  have hle₂ : n * i.denominator ≤ i.high ↔ n ≤ b := by
    rw [← Nat.cast_le (α := ℚ), Nat.cast_mul, h.high, mul_le_mul_iff_left₀ hpos]
  have hlt₁ : i.low < n * i.denominator ↔ a < n := by
    rw [← Nat.cast_lt (α := ℚ), Nat.cast_mul, h.low, mul_lt_mul_iff_left₀ hpos]
  have hlt₂ : n * i.denominator < i.high ↔ n < b := by
    rw [← Nat.cast_lt (α := ℚ), Nat.cast_mul, h.high, mul_lt_mul_iff_left₀ hpos]
  rw [Interval.hits, Inside]
  cases i.closed
  · simp only [Bool.false_eq_true, if_false, Bool.and_eq_true, decide_eq_true_eq, hlt₁,
      hlt₂, false_or]
    exact ⟨fun h => ⟨h.1.le, h.2.le, h⟩, fun h => h.2.2⟩
  · simp only [if_true, Bool.and_eq_true, decide_eq_true_eq, hle₁, hle₂, true_or, and_true]

/-- Steps of a power of ten scale an interval. -/
theorem Interval.Spans.inSteps (h : i.Spans a v b) (e : Int) :
    (i.inSteps e).Spans (a / 10 ^ e) (v / 10 ^ e) (b / 10 ^ e) := by
  have hpow : (10 : ℚ) ^ (-e).toNat = 10 ^ e.toNat / 10 ^ e := by
    rw [← zpow_natCast, ← zpow_natCast, ← zpow_sub₀ (by norm_num)]
    congr 1
    omega
  have hup : ((tenPow (-e).toNat : Nat) : ℚ) = 10 ^ e.toNat / 10 ^ e := by
    rw [← hpow]
    exact Nat.cast_pow 10 _
  have hdown : ((tenPow e.toNat : Nat) : ℚ) = 10 ^ e.toNat := Nat.cast_pow 10 _
  refine ⟨Nat.mul_pos h.pos (Nat.pow_pos (by decide)), ?_, ?_, ?_⟩
  · simp only [Interval.inSteps, Nat.cast_mul, h.low, hup, hdown]
    field_simp
  · simp only [Interval.inSteps, Nat.cast_mul, h.value, hup, hdown]
    field_simp
  · simp only [Interval.inSteps, Nat.cast_mul, h.high, hup, hdown]
    field_simp

theorem Interval.hits_of_nearest? {n : Nat} (h : i.nearest? = some n) : i.hits n = true := by
  unfold Interval.nearest? at h
  simp only at h
  split at h
  · split at h
    · cases h
      assumption
    · split at h
      · cases h
        assumption
      · split at h <;> cases h <;> assumption
  · cases h
    assumption
  · cases h
    assumption
  · cases h

/-- The interval has no whole number next to its value if there is none nearest. -/
theorem Interval.nearest?_eq_none (h : i.nearest? = none) :
    i.hits (i.value / i.denominator) = false ∧ i.hits (i.value / i.denominator + 1) = false := by
  unfold Interval.nearest? at h
  simp only at h
  split at h
  · split at h
    · cases h
    · split at h
      · cases h
      · split at h <;> cases h
  · cases h
  · cases h
  · exact ⟨‹_›, ‹_›⟩

/-- The value lies between two whole numbers. -/
private theorem Interval.Spans.floor (h : i.Spans a v b) :
    ((i.value / i.denominator : Nat) : ℚ) ≤ v ∧ v < (i.value / i.denominator : Nat) + 1 := by
  have hpos : (0 : ℚ) < i.denominator := by exact_mod_cast h.pos
  have hdiv : (i.denominator * (i.value / i.denominator : Nat) +
    (i.value % i.denominator : Nat) : ℚ) =
      v * i.denominator := by
    rw [← h.value]
    exact_mod_cast Nat.div_add_mod i.value i.denominator
  have hmod : ((i.value % i.denominator : Nat) : ℚ) < i.denominator := by
    exact_mod_cast Nat.mod_lt _ h.pos
  constructor
  · refine le_of_mul_le_mul_right ?_ hpos
    have : (0 : ℚ) ≤ (i.value % i.denominator : Nat) := Nat.cast_nonneg _
    linarith
  · refine lt_of_mul_lt_mul_right ?_ hpos.le
    linarith

/-- An interval that is wider than a step, or whose value is a whole number, has a whole number next
to its value. -/
theorem Interval.Spans.nearest?_ne_none (h : i.Spans a v b) (ha : a < v) (hb : v < b)
    (hwidth : 1 < b - a ∨ ∃ w : Nat, v = w) : i.nearest? ≠ none := by
  intro hnone
  obtain ⟨hmiss, hmiss'⟩ := Interval.nearest?_eq_none hnone
  obtain ⟨hfloor, hceil⟩ := h.floor
  generalize i.value / i.denominator = n at *
  have hout (x : Nat) (hx : i.hits x = false) : ¬ (a < x ∧ x < b) := fun hin =>
    Bool.eq_false_iff.1 hx ((h.hits_iff x).2 ⟨hin.1.le, hin.2.le, .inr hin⟩)
  have hn := hout n hmiss
  have hn' := hout (n + 1) hmiss'
  rcases hwidth with hwidth | ⟨w, rfl⟩
  · have h1 : (n : ℚ) ≤ a := by
      by_contra hlt
      exact hn ⟨not_le.1 hlt, by linarith⟩
    have h2 : b ≤ n + 1 := by
      by_contra hlt
      exact hn' ⟨by push_cast; linarith, by push_cast; exact not_le.1 hlt⟩
    linarith
  · have : w = n := by
      have h1 : n ≤ w := by exact_mod_cast hfloor
      have h2 : w < n + 1 := by exact_mod_cast hceil
      omega
    subst this
    exact hn ⟨ha, hb⟩

/-- The digits of a number count its power of ten. -/
theorem length_digitsOf_le_iff {n k : Nat} (hk : 0 < k) : (digitsOf n).length ≤ k ↔ n < 10 ^ k :=
  Nat.length_toDigits_le_iff (by decide) hk

theorem lt_ten_pow_length (n : Nat) : n < 10 ^ (digitsOf n).length :=
  (length_digitsOf_le_iff Nat.length_toDigits_pos).1 le_rfl

theorem ten_pow_le_of_pos {n : Nat} (hn : 0 < n) : 10 ^ ((digitsOf n).length - 1) ≤ n := by
  by_contra hlt
  rcases Nat.eq_zero_or_pos ((digitsOf n).length - 1) with hzero | hpos
  · rw [hzero] at hlt
    omega
  · have := (length_digitsOf_le_iff hpos).2 (not_le.1 hlt)
    omega

/-- The power of ten of the leading digit is not above the value. -/
theorem Interval.Spans.leading (h : i.Spans a v b) (hv : 0 < v) : (10 : ℚ) ^ i.leading ≤ v := by
  have hpos : (0 : ℚ) < i.denominator := by exact_mod_cast h.pos
  rw [Interval.leading]
  split
  · rename_i hle
    have hfloor := h.floor.1
    have hn : 0 < i.value / i.denominator := Nat.div_pos hle h.pos
    have hlength : 0 < (digitsOf (i.value / i.denominator)).length := Nat.length_toDigits_pos
    have hten := ten_pow_le_of_pos hn
    generalize i.value / i.denominator = n at *
    rw [show ((digitsOf n).length : Int) - 1 =
      ((digitsOf n).length - 1 : Nat) by omega, zpow_natCast]
    calc (10 : ℚ) ^ ((digitsOf n).length - 1) ≤ n := by exact_mod_cast hten
      _ ≤ v := hfloor
  · rename_i hlt
    have hvalue : 0 < i.value := by
      have : (0 : ℚ) < i.value := by rw [h.value]; positivity
      exact_mod_cast this
    have hdigits := lt_ten_pow_length ((i.denominator - 1) / i.value)
    rw [Nat.div_lt_iff_lt_mul hvalue] at hdigits
    generalize (digitsOf ((i.denominator - 1) / i.value)).length = k at *
    have hle : i.denominator ≤ 10 ^ k * i.value := by omega
    have hle' : (i.denominator : ℚ) ≤ 10 ^ k * (v * i.denominator) := by
      rw [← h.value]
      exact_mod_cast hle
    rw [zpow_neg, zpow_natCast, inv_le_iff_one_le_mul₀ (by positivity)]
    refine le_of_mul_le_mul_right ?_ hpos
    linarith

/-! ### Rounding intervals -/

private theorem two_zpow_eq (q : Int) : (2 : ℚ) ^ q = 4 * 2 ^ (q - 2) := by
  rw [zpow_sub₀ two_ne_zero]
  norm_num
  field_simp

/-- How far the lower end is from the value, in quarters of the last place. -/
def belowOf (d : Dyadic) : Nat := if d.significand = 2 ^ 52 ∧ -1074 < d.exponent then 1 else 2

/-- The rounding interval of a double. -/
theorem spans_around {d : Dyadic} (hpos : 0 < d.significand) :
    (Interval.around d.significand d.exponent).Spans
      ((4 * d.significand - belowOf d) * 2 ^ (d.exponent - 2))
      (d.significand * 2 ^ d.exponent)
      ((4 * d.significand + 2) * 2 ^ (d.exponent - 2)) := by
  have hbelow : belowOf d ≤ 2 := by
    rw [belowOf]
    split <;> decide
  have hpow : (2 : ℚ) ^ (d.exponent - 2).toNat =
    2 ^ (d.exponent - 2) * 2 ^ (2 - d.exponent).toNat := by
    rw [← zpow_natCast, ← zpow_natCast, ← zpow_add₀ two_ne_zero]
    congr 1
    omega
  have hup : ((twoPow (d.exponent - 2).toNat : Nat) : ℚ) =
      2 ^ (d.exponent - 2) * 2 ^ (2 - d.exponent).toNat := by
    rw [← hpow]
    exact Nat.cast_pow 2 _
  have hdown : ((twoPow (2 - d.exponent).toNat : Nat) : ℚ) = 2 ^ (2 - d.exponent).toNat :=
    Nat.cast_pow 2 _
  have hfour := two_zpow_eq d.exponent
  have hlow : (Interval.around d.significand d.exponent).low =
      (4 * d.significand - belowOf d) * twoPow (d.exponent - 2).toNat := rfl
  refine ⟨Nat.pow_pos (by decide), ?_, ?_, ?_⟩
  · rw [hlow, Nat.cast_mul, Nat.cast_sub (by omega), hup]
    simp only [Interval.around, hdown]
    push_cast
    ring
  · simp only [Interval.around, Nat.cast_mul, hup, hdown, hfour]
    push_cast
    ring
  · simp only [Interval.around, Nat.cast_mul, hup, hdown]
    push_cast
    ring

/-- What lies in the rounding interval rounds to the double. -/
theorem rounding_of_inside {d : Dyadic} (hd : d.negative = false) (hpos : 0 < d.significand)
    (hcanonical : d.Canonical)
    (h : Inside (d.significand % 2 == 0) ((4 * d.significand - belowOf d) * 2 ^ (d.exponent - 2))
      ((4 * d.significand + 2) * 2 ^ (d.exponent - 2)) v) : Rounding v d := by
  have hfour : (2 : ℚ) ^ (d.exponent - 2) = 2 ^ d.exponent / 4 := by
    rw [two_zpow_eq d.exponent]
    field_simp
  have hpow : (0 : ℚ) < 2 ^ d.exponent := by positivity
  have hbelow : (belowOf d : ℚ) ≤ 2 := by
    rw [belowOf]
    split <;> norm_num
  obtain ⟨hlow, hhigh, htie⟩ := h
  rw [hfour] at hlow hhigh htie
  have hlow' : d.significand - belowOf d / 4 ≤ v / 2 ^ d.exponent := by
    rw [le_div_iff₀ hpow]
    linarith
  have hhigh' : v / 2 ^ d.exponent ≤ d.significand + 1 / 2 := by
    rw [div_le_iff₀ hpow]
    linarith
  refine ⟨hd, hpos, hcanonical, ⟨by linarith, hhigh', ?_⟩, fun hm hq => ?_⟩
  · rcases htie with heven | ⟨hlow, hhigh⟩
    · exact .inl (by simpa using heven)
    · refine .inr ⟨?_, ?_⟩
      · rw [lt_div_iff₀ hpow]
        nlinarith
      · rw [div_lt_iff₀ hpow]
        linarith
  · rw [belowOf, if_pos ⟨hm, hq⟩, hm] at hlow'
    push_cast at hlow'
    exact hlow'

/-- The first of a range of numbers that gives something. -/
private theorem exists_of_findSome?_range {α : Type} {f : Nat → Option α} {n : Nat} {b : α}
    (h : (List.range n).findSome? f = some b) : ∃ k < n, f k = some b ∧ ∀ j < k, f j = none := by
  induction n with
  | zero => simp at h
  | succ n ih =>
    rw [List.range_succ, List.findSome?_append] at h
    cases hfirst : (List.range n).findSome? f with
    | some c =>
      rw [hfirst] at h
      cases h
      obtain ⟨k, hk, hfound⟩ := ih hfirst
      exact ⟨k, by omega, hfound⟩
    | none =>
      rw [hfirst] at h
      refine ⟨n, by omega, by simpa using h, fun j hj => ?_⟩
      exact List.findSome?_eq_none_iff.1 hfirst j (List.mem_range.2 hj)

/-- On a grid of seventeen digits the interval is wider than a step. -/
private theorem step_lt_width {d : Dyadic} {L : Int} (hlt : d.significand < 2 ^ 53)
    (hL : (10 : ℚ) ^ L ≤ d.significand * 2 ^ d.exponent) :
    (10 : ℚ) ^ (L - 16) < (4 * d.significand + 2) * 2 ^ (d.exponent - 2) -
      (4 * d.significand - belowOf d) * 2 ^ (d.exponent - 2) := by
  have hfour := two_zpow_eq d.exponent
  have hpow : (0 : ℚ) < 2 ^ (d.exponent - 2) := by positivity
  rw [zpow_sub₀ (by norm_num), div_lt_iff₀ (by positivity)]
  rw [hfour] at hL
  rw [belowOf]
  split
  · rename_i h
    rw [h.1] at hL ⊢
    norm_num at hL ⊢
    linarith
  · have hlt' : (d.significand : ℚ) * (4 * 2 ^ (d.exponent - 2)) <
      2 ^ 53 * (4 * 2 ^ (d.exponent - 2)) := by
      refine mul_lt_mul_of_pos_right ?_ (by positivity)
      exact_mod_cast hlt
    norm_num at hL hlt' ⊢
    linarith

/-- The value lies strictly between the ends. -/
private theorem between_ends {d : Dyadic} :
    ((4 * d.significand - belowOf d) * 2 ^ (d.exponent - 2) : ℚ) < d.significand * 2 ^ d.exponent ∧
      (d.significand * 2 ^ d.exponent : ℚ) < (4 * d.significand + 2) * 2 ^ (d.exponent - 2) := by
  have hfour := two_zpow_eq d.exponent
  have hpow : (0 : ℚ) < 2 ^ (d.exponent - 2) := by positivity
  have hbelow : (1 : ℚ) ≤ belowOf d := by
    rw [belowOf]
    split <;> norm_num
  rw [hfour]
  constructor <;> nlinarith

private theorem Inside.scale {closed : Bool} {a b x s : ℚ} (hs : 0 < s)
    (h : Inside closed (a / s) (b / s) x) : Inside closed a b (x * s) := by
  obtain ⟨hlow, hhigh, htie⟩ := h
  rw [div_le_iff₀ hs] at hlow
  rw [le_div_iff₀ hs] at hhigh
  rw [div_lt_iff₀ hs, lt_div_iff₀ hs] at htie
  exact ⟨hlow, hhigh, htie⟩

/-- A whole number is a natural number. -/
private theorem exists_nat_of_isWhole {d : Dyadic} (hpos : 0 < d.significand)
    (h : d.isWhole = true) :
    ∃ w : Nat, 0 < w ∧ (d.significand * 2 ^ d.exponent : ℚ) = w := by
  obtain ⟨negative, m, q⟩ := d
  simp only at hpos ⊢
  cases q with
  | ofNat k => exact ⟨m * 2 ^ k, by positivity, by simp⟩
  | negSucc k =>
    have hmod : m % 2 ^ (k + 1) = 0 := by simpa [Dyadic.isWhole, twoPow] using h
    obtain ⟨w, hw⟩ := Nat.dvd_of_mod_eq_zero hmod
    refine ⟨w, Nat.pos_of_ne_zero fun h0 => by simp [hw, h0] at hpos, ?_⟩
    rw [hw, zpow_negSucc]
    push_cast
    field_simp

/-- The leading digit of a natural number is no fraction. -/
private theorem Interval.Spans.leading_nonneg (h : i.Spans a v b) (hv : 1 ≤ v) : 0 ≤ i.leading := by
  have hle : (i.denominator : ℚ) ≤ i.value := by
    rw [h.value]
    exact le_mul_of_one_le_left (Nat.cast_nonneg _) hv
  have hlength : 0 < (digitsOf (i.value / i.denominator)).length := Nat.length_toDigits_pos
  rw [Interval.leading, if_pos (by exact_mod_cast hle)]
  omega

/-- **The fewest digits that read back exist.** They round to the double, and those of a whole
number have no fraction. -/
theorem shortest?_spec {d : Dyadic} (hd : d.negative = false) (hpos : 0 < d.significand)
    (hcanonical : d.Canonical) :
    ∃ s, shortest? d.significand d.exponent = some s ∧
      Rounding (s.digits * 10 ^ s.exponent) d ∧ (d.isWhole = true → 0 ≤ s.exponent) := by
  have hspans := spans_around hpos
  have hclosed : (Interval.around d.significand d.exponent).closed = (d.significand % 2 == 0) := rfl
  obtain ⟨hlow, hhigh⟩ := between_ends (d := d)
  have hvalue : (0 : ℚ) < d.significand * 2 ^ d.exponent := by
    have : (0 : ℚ) < d.significand := by exact_mod_cast hpos
    positivity
  have hwidth := step_lt_width hcanonical.lt (hspans.leading hvalue)
  have hinside (x : ℚ) := rounding_of_inside (v := x) hd hpos hcanonical
  have hwhole := exists_nat_of_isWhole (d := d) hpos
  rw [shortest?]
  generalize Interval.around d.significand d.exponent = i at *
  generalize ((4 * d.significand - belowOf d) * 2 ^ (d.exponent - 2) : ℚ) = low at *
  generalize ((4 * d.significand + 2) * 2 ^ (d.exponent - 2) : ℚ) = high at *
  generalize (d.significand * 2 ^ d.exponent : ℚ) = v at *
  have hfound (e : Int) (h : 10 ^ e < high - low ∨ ∃ w : Nat, v / 10 ^ e = w) :
      (i.inSteps e).nearest? ≠ none := by
    have hten : (0 : ℚ) < 10 ^ e := by positivity
    refine (hspans.inSteps e).nearest?_ne_none (div_lt_div_of_pos_right hlow hten)
      (div_lt_div_of_pos_right hhigh hten) (h.imp_left fun h => ?_)
    rwa [← sub_div, one_lt_div hten]
  simp only
  cases hs : (List.range 17).findSome? fun (k : Nat) =>
      (i.inSteps (i.leading - k)).nearest?.map (Decimal.mk · (i.leading - k)) with
  | none =>
    have hnone := List.findSome?_eq_none_iff.1 hs 16 (by simp)
    exact absurd (Option.map_eq_none_iff.1 hnone) (hfound _ (.inl hwidth))
  | some s =>
    obtain ⟨k, hk, hmap, hfirst⟩ := exists_of_findSome?_range hs
    obtain ⟨n, hn, rfl⟩ := Option.map_eq_some_iff.1 hmap
    refine ⟨_, rfl, hinside _ ?_, fun h => ?_⟩
    · have hhits := ((hspans.inSteps _).hits_iff n).1 (Interval.hits_of_nearest? hn)
      rw [← hclosed]
      exact hhits.scale (by positivity)
    · obtain ⟨w, hw, hv⟩ := hwhole h
      have hleading := hspans.leading_nonneg (by rw [hv]; exact_mod_cast hw)
      by_contra hneg
      -- with as many digits as the number has, the number itself is on the grid
      have hnone := hfirst i.leading.toNat (by simp only at hneg; omega)
      refine hfound _ (.inr ⟨w, ?_⟩) (Option.map_eq_none_iff.1 hnone)
      rw [show i.leading - (i.leading.toNat : Int) = 0 by omega, zpow_zero, div_one, hv]

end ChartNet.Number
