import Mathlib
import ChartNet.Number.Dyadic

/-!
# Doubles

A finite double and its **dyadic** view determine each other: the bits of a double are those of the
sign, the exponent and the significand, and the canonical dyadic numbers are those that a double
has. What the operations on doubles do to signs and order is read off this view.
-/

namespace ChartNet.Number

open Float.Model (Format UnpackedFloat)
open Float.Model.UnpackedFloat

/-- The **number** of a double; zero if it is not finite. -/
def numberOf (x : Float) : ℚ :=
  match dyadic? x with
  | none => 0
  | some d =>
    let m : Int := if d.negative then -d.significand else d.significand
    match d.exponent with
    | .ofNat k => m * 2 ^ k
    | .negSucc k => mkRat m (2 ^ (k + 1))

/-! ### Bits -/

/-- The dyadic view, from the bits. -/
theorem dyadic?_eq {x : Float} {n : Nat} (hn : x.toBits.toNat = n) :
    dyadic? x =
      if n / 2 ^ 52 % 2 ^ 11 = 2 ^ 11 - 1 then none
      else if n / 2 ^ 52 % 2 ^ 11 = 0 then some ⟨decide (2 ^ 63 ≤ n), n % 2 ^ 52, -1074⟩
      else some ⟨decide (2 ^ 63 ≤ n), 2 ^ 52 + n % 2 ^ 52,
        -1074 + ((n / 2 ^ 52 % 2 ^ 11 - 1 : Nat) : Int)⟩ := by
  subst hn
  rfl

/-- The bits of a sign, an exponent and a fraction. -/
theorem toNat_packComponents (s : Sign) (e : BitVec 11) (m : BitVec 52) :
    (packComponents Format.binary64 s e m).toNat =
      s.toBitVec.toNat * 2 ^ 63 + e.toNat * 2 ^ 52 + m.toNat := by
  have he := e.isLt
  have hm := m.isLt
  simp only [packComponents, BitVec.toNat_append]
  rw [← Nat.shiftLeft_add_eq_or_of_lt he, ← Nat.shiftLeft_add_eq_or_of_lt hm]
  simp only [Nat.shiftLeft_eq]
  omega

variable (b : BitVec Format.binary64.numBits)

theorem toNat_unpackMantissa : (unpackMantissa b).toNat = b.toNat % 2 ^ 52 := by
  simp [unpackMantissa]

theorem toNat_unpackExponent : (unpackExponent b).toNat = b.toNat / 2 ^ 52 % 2 ^ 11 := by
  simp [unpackExponent, Nat.shiftRight_eq_div_pow]

theorem toNat_unpackSign : (unpackSign b).toNat = b.toNat / 2 ^ 63 := by
  have hlt : b.toNat < 2 ^ 64 := b.isLt
  simp [unpackSign, Nat.shiftRight_eq_div_pow]
  omega

/-- The sign that a bit stands for. -/
def signOf (negative : Bool) : Sign := if negative then .negative else .positive

/-- A dyadic number as a number of the model: zero, or finite with a significand. -/
def Dyadic.unpacked (d : Dyadic) : UnpackedFloat :=
  if h : d.significand = 0 then .zero (signOf d.negative)
  else .finite (signOf d.negative) d.significand d.exponent (Nat.pos_of_ne_zero h)

private theorem sign_unpackSign : Sign.ofBitVec (unpackSign b) = signOf
    (decide (2 ^ 63 ≤ b.toNat)) := by
  have hlt : b.toNat < 2 ^ 64 := b.isLt
  have hsign := toNat_unpackSign b
  have hiff : unpackSign b = 0#1 ↔ ¬ 2 ^ 63 ≤ b.toNat := by
    rw [← BitVec.toNat_inj, hsign, BitVec.toNat_ofNat]
    omega
  by_cases h : 2 ^ 63 ≤ b.toNat
  · rw [Sign.ofBitVec, if_neg (by simpa [hiff] using h), signOf, if_pos (by simpa using h)]
  · rw [Sign.ofBitVec, if_pos (hiff.2 h), signOf, if_neg (by simpa using h)]

/-- A double with a dyadic view is unpacked as it. -/
theorem unpack_of_dyadic? {x : Float} {d : Dyadic} (h : dyadic? x = some d) :
    x.toModel.unpack = d.unpacked := by
  have hm := toNat_unpackMantissa x.toModel.toBits.toBitVec
  have he := toNat_unpackExponent x.toModel.toBits.toBitVec
  rw [dyadic?_eq (n := x.toModel.toBits.toBitVec.toNat) rfl, ← hm, ← he] at h
  rw [Float.Model.unpack, UnpackedFloat.unpack]
  simp only [sign_unpackSign]
  simp only [← BitVec.toNat_inj]
  have hneg : (-1#11).toNat = 2 ^ 11 - 1 := rfl
  have hbias : ((Format.binary64.exponentBias : Nat) : Int) = 1023 := rfl
  rw [hneg]
  split at h
  · cases h
  · rename_i hfield
    rw [if_neg hfield]
    split at h
    · rename_i hzero
      rw [if_pos (by simpa using hzero)]
      cases h
      simp only [Dyadic.unpacked, hzero, hbias]
      rfl
    · rename_i hzero
      rw [if_neg (by simpa using hzero)]
      cases h
      rw [Dyadic.unpacked, dif_neg (by simp)]
      congr 1
      · rw [BitVec.toNat_append, ← Nat.shiftLeft_add_eq_or_of_lt (BitVec.isLt _)]
        rfl
      · simp only [hbias]
        omega

/-! ### Canonical dyadic numbers -/

/-- A dyadic number is **canonical** if its significand fills its bits, or its exponent is the
least. -/
structure Dyadic.Canonical (d : Dyadic) : Prop where
  lt : d.significand < 2 ^ 53
  normal : 2 ^ 52 ≤ d.significand ∨ d.exponent = -1074
  least : -1074 ≤ d.exponent
  greatest : d.exponent ≤ 971

/-- The bits of a canonical dyadic number. -/
def Dyadic.bits (d : Dyadic) : Nat :=
  d.negative.toNat * 2 ^ 63 +
    if 2 ^ 52 ≤ d.significand then (d.exponent + 1075).toNat * 2 ^ 52 + (d.significand - 2 ^ 52)
    else d.significand

/-- The dyadic view of a double is canonical and has the bits of the double. -/
theorem bits_of_dyadic? {x : Float} {d : Dyadic} (h : dyadic? x = some d) :
    x.toBits.toNat = d.bits ∧ d.Canonical := by
  have hlt : x.toBits.toNat < 2 ^ 64 := x.toBits.toBitVec.isLt
  rw [dyadic?_eq rfl] at h
  generalize x.toBits.toNat = n at h hlt ⊢
  have hsign : (decide (2 ^ 63 ≤ n)).toNat = n / 2 ^ 63 := by
    by_cases hn : 2 ^ 63 ≤ n
    · rw [decide_eq_true hn, Bool.toNat_true]
      omega
    · rw [decide_eq_false hn, Bool.toNat_false]
      omega
  by_cases hinfinite : n / 2 ^ 52 % 2 ^ 11 = 2 ^ 11 - 1
  · rw [if_pos hinfinite] at h
    cases h
  rw [if_neg hinfinite] at h
  -- the least exponent stands for subnormal numbers, which have no leading bit of their own
  by_cases hzero : n / 2 ^ 52 % 2 ^ 11 = 0
  · rw [if_pos hzero] at h
    cases h
    refine ⟨?_, ?_, .inr rfl, Int.le_refl _, by simp⟩
    · simp only [Dyadic.bits, hsign]
      rw [if_neg (by omega)]
      omega
    · simp only
      omega
  · rw [if_neg hzero] at h
    cases h
    refine ⟨?_, ?_, .inl (by simp), by simp only; omega, ?_⟩
    · simp only [Dyadic.bits, hsign]
      rw [if_pos (by omega)]
      omega
    · simp only
      omega
    · simp only
      omega

private theorem toNat_pack {d : Dyadic} (h : d.Canonical) :
    (UnpackedFloat.pack Format.binary64 d.unpacked).toNat = d.bits := by
  obtain ⟨hlt, hnormal, hleast, hgreatest⟩ := h
  have hbias : Format.binary64.exponentBias = 1023 := rfl
  have hsign : (signOf d.negative).toBitVec.toNat = d.negative.toNat := by
    cases d.negative <;> rfl
  rw [Dyadic.unpacked, Dyadic.bits]
  split
  · rename_i hzero
    rw [UnpackedFloat.pack, packedZero, toNat_packComponents, hsign, hzero, if_neg (by decide)]
    simp
  · rename_i hzero
    rw [UnpackedFloat.pack]
    simp only [hbias]
    rw [if_neg (by change ¬ 2 ^ 11 ≤ (d.exponent + 1023 + 52).toNat + 1; omega)]
    -- normal numbers leave out their leading bit
    by_cases h52 : 2 ^ 52 ≤ d.significand
    · have hlog : d.significand.log2 + 1 = Format.binary64.mantissaBits := by
        have := (Nat.log2_lt hzero).2 hlt
        have := (Nat.le_log2 hzero).2 h52
        change _ = 53
        omega
      rw [if_pos hlog, if_pos h52, toNat_packComponents, hsign]
      rw [BitVec.toNat_ofNat, BitVec.toNat_ofNat]
      change _ + (d.exponent + 1023 + 52).toNat % 2 ^ 11 * 2 ^ 52 + d.significand % 2 ^ 52 = _
      omega
    · have hlog : d.significand.log2 + 1 ≠ Format.binary64.mantissaBits := by
        have := (Nat.log2_lt hzero).2 (Nat.lt_of_not_le h52)
        change _ ≠ 53
        omega
      rw [if_neg hlog, if_neg h52, toNat_packComponents, hsign]
      rw [BitVec.toNat_ofNat, BitVec.toNat_ofNat]
      change _ + 0 % 2 ^ 11 * 2 ^ 52 + d.significand % 2 ^ 52 = _
      omega

/-- The double that a dyadic number is. -/
def Dyadic.toFloat (d : Dyadic) : Float := .ofModel (.pack d.unpacked)

theorem toNat_toBits_toFloat {d : Dyadic} (h : d.Canonical) : d.toFloat.toBits.toNat = d.bits :=
  toNat_pack h

/-- A double is the one of its dyadic view. -/
theorem eq_toFloat_of_dyadic? {x : Float} {d : Dyadic} (h : dyadic? x = some d) :
    x = d.toFloat := by
  obtain ⟨hbits, hcanonical⟩ := bits_of_dyadic? h
  have heq : x.toBits = d.toFloat.toBits :=
    UInt64.toNat_inj.1 (hbits.trans (toNat_toBits_toFloat hcanonical).symm)
  obtain ⟨⟨bits, valid⟩⟩ := x
  rw [Dyadic.toFloat] at heq ⊢
  congr

/-- A canonical dyadic number is the view of its double. -/
theorem dyadic?_toFloat {d : Dyadic} (h : d.Canonical) : dyadic? d.toFloat = some d := by
  rw [dyadic?_eq (toNat_toBits_toFloat h)]
  obtain ⟨hlt, hnormal, hleast, hgreatest⟩ := h
  obtain ⟨negative, significand, exponent⟩ := d
  simp only at hlt hnormal hleast hgreatest
  have hnegative := Bool.toNat_le negative
  obtain ⟨n, hn⟩ : ∃ n, n = Dyadic.bits ⟨negative, significand, exponent⟩ := ⟨_, rfl⟩
  have hsign (hn : n / 2 ^ 63 = negative.toNat) : decide (2 ^ 63 ≤ n) = negative := by
    cases negative with
    | false => exact decide_eq_false (by rw [Bool.toNat_false] at hn; omega)
    | true => exact decide_eq_true (by rw [Bool.toNat_true] at hn; omega)
  rw [← hn]
  simp only [Dyadic.bits] at hn
  by_cases h52 : 2 ^ 52 ≤ significand
  · rw [if_pos h52] at hn
    have hfield : n / 2 ^ 52 % 2 ^ 11 = (exponent + 1075).toNat := by omega
    have hfraction : n % 2 ^ 52 = significand - 2 ^ 52 := by omega
    rw [hsign (by omega), hfield, hfraction, if_neg (by omega), if_neg (by omega)]
    have hexponent : -1074 + (((exponent + 1075).toNat - 1 : Nat) : Int) = exponent := by omega
    rw [hexponent, Nat.add_sub_cancel' h52]
  · rw [if_neg h52] at hn
    have hfield : n / 2 ^ 52 % 2 ^ 11 = 0 := by omega
    have hfraction : n % 2 ^ 52 = significand := by omega
    rw [hsign (by omega), hfield, hfraction, if_neg (by decide), if_pos rfl,
      hnormal.resolve_left h52]

/-! ### Signs and order -/

/-- What is no dyadic number is infinite or no number. -/
theorem unpack_of_dyadic?_eq_none {x : Float} (h : dyadic? x = none) :
    x.toModel.unpack = .notANumber ∨ ∃ s, x.toModel.unpack = .infinity s := by
  have he := toNat_unpackExponent x.toModel.toBits.toBitVec
  rw [dyadic?_eq (n := x.toModel.toBits.toBitVec.toNat) rfl, ← he] at h
  rw [Float.Model.unpack, UnpackedFloat.unpack]
  have hneg : (-1#11).toNat = 2 ^ 11 - 1 := rfl
  split at h
  · rename_i hfield
    simp only [← BitVec.toNat_inj (x := unpackExponent _), hneg]
    rw [if_pos hfield]
    split
    · exact .inr ⟨_, rfl⟩
    · exact .inl rfl
  · split at h <;> cases h

theorem isFinite_eq (x : Float) : x.isFinite = (dyadic? x).isSome := by
  change x.toModel.unpack.isFinite = _
  cases h : dyadic? x with
  | none =>
    rcases unpack_of_dyadic?_eq_none h with hx | ⟨s, hx⟩ <;> rw [hx] <;> rfl
  | some d =>
    rw [unpack_of_dyadic? h, Dyadic.unpacked]
    split <;> rfl

/-- The dyadic number with a sign. -/
def Dyadic.withSign (d : Dyadic) (negative : Bool) : Dyadic := { d with negative := negative }

theorem Dyadic.Canonical.withSign {d : Dyadic} (h : d.Canonical) (negative : Bool) :
    (d.withSign negative).Canonical :=
  ⟨h.lt, h.normal, h.least, h.greatest⟩

theorem neg_eq_toFloat {x : Float} {d : Dyadic} (h : dyadic? x = some d) :
    -x = (d.withSign !d.negative).toFloat := by
  change Float.ofModel (.pack x.toModel.unpack.neg) = _
  rw [unpack_of_dyadic? h, Dyadic.toFloat]
  by_cases hm : d.significand = 0
  · cases hd : d.negative <;> simp [Dyadic.unpacked, Dyadic.withSign, hm, hd] <;> rfl
  · cases hd : d.negative <;> simp [Dyadic.unpacked, Dyadic.withSign, hm, hd] <;> rfl

theorem dyadic?_neg {x : Float} {d : Dyadic} (h : dyadic? x = some d) :
    dyadic? (-x) = some (d.withSign !d.negative) := by
  rw [neg_eq_toFloat h, dyadic?_toFloat ((bits_of_dyadic? h).2.withSign _)]

theorem lt_iff {x y : Float} : x < y ↔ x.toModel.unpack.lt y.toModel.unpack = true := by
  change (decide (x.toModel.unpack.lt y.toModel.unpack = true)) = true ↔ _
  exact decide_eq_true_iff

theorem dyadic?_zero : dyadic? 0 = some ⟨false, 0, -1074⟩ := rfl

theorem lt_zero_iff {x : Float} {d : Dyadic} (h : dyadic? x = some d) :
    x < 0 ↔ d.negative = true ∧ d.significand ≠ 0 := by
  rw [lt_iff, unpack_of_dyadic? h, unpack_of_dyadic? dyadic?_zero, Dyadic.unpacked, Dyadic.unpacked]
  split
  · rename_i hm
    simp [UnpackedFloat.lt, UnpackedFloat.compare, hm]
  · rename_i hm
    cases hd : d.negative <;> simp [UnpackedFloat.lt, UnpackedFloat.compare, hm, signOf]

theorem beq_zero_iff {x : Float} {d : Dyadic} (h : dyadic? x = some d) :
    (x == 0) = true ↔ d.significand = 0 := by
  change x.toModel.unpack.beq (0 : Float).toModel.unpack = true ↔ _
  rw [unpack_of_dyadic? h, unpack_of_dyadic? dyadic?_zero, Dyadic.unpacked, Dyadic.unpacked]
  split
  · rename_i hm
    simp [UnpackedFloat.beq, UnpackedFloat.compare, hm]
  · rename_i hm
    cases hd : d.negative <;> simp [UnpackedFloat.beq, UnpackedFloat.compare, hm, signOf]

theorem abs_eq_toFloat {x : Float} {d : Dyadic} (h : dyadic? x = some d) :
    x.abs = (d.withSign false).toFloat := by
  change Float.ofModel (.pack x.toModel.unpack.abs) = _
  rw [unpack_of_dyadic? h, Dyadic.toFloat]
  by_cases hm : d.significand = 0
  · simp [Dyadic.unpacked, Dyadic.withSign, hm]
    rfl
  · simp [Dyadic.unpacked, Dyadic.withSign, hm]
    rfl

/-- A number below the bound is finite, and its exponent and significand are below those of the
bound. -/
theorem exists_of_abs_lt {x : Float} (h : x.abs < 1e21) :
    ∃ d, dyadic? x = some d ∧
      (d.exponent < 17 ∨ d.exponent = 17 ∧ d.significand < 7629394531250000) := by
  have hbound : dyadic? 1e21 = some ⟨false, 7629394531250000, 17⟩ := rfl
  cases hx : dyadic? x with
  | none =>
    have habs : x.abs = .ofModel (.pack x.toModel.unpack.abs) := rfl
    rcases unpack_of_dyadic?_eq_none hx with hx | ⟨s, hx⟩
    · rw [habs, hx] at h
      exact absurd h (by decide)
    · rw [habs, hx, show (UnpackedFloat.infinity s).abs = .infinity .positive from rfl] at h
      exact absurd h (by decide)
  | some d =>
    refine ⟨d, rfl, ?_⟩
    have hcanonical := (bits_of_dyadic? hx).2
    by_cases hm : d.significand = 0
    · rcases hcanonical.normal with hnormal | hnormal
      · omega
      · omega
    · rw [lt_iff, abs_eq_toFloat hx, unpack_of_dyadic? (dyadic?_toFloat (hcanonical.withSign _)),
        unpack_of_dyadic? hbound] at h
      simp [Dyadic.unpacked, Dyadic.withSign, hm, signOf, UnpackedFloat.lt, UnpackedFloat.compare,
        Ordering.then_eq_lt, Int.compare_eq_lt, Nat.compare_eq_lt] at h
      omega

end ChartNet.Number
