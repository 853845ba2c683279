import Mathlib
import ChartNet.Proofs.Number.Shortest
import ChartNet.Proofs.Source.Lexing

/-!
# Numerals

A numeral has a rational **value**, and reading it gives the double that this value rounds to. A
decimal is written as a numeral with just its value, with a point or with an exponent.
-/

namespace ChartNet.Number

open Token (IsDigits IsNumeral)

/-! ### Runs of digits -/

theorem natOfDigits_eq (ds : List Char) : natOfDigits ds = Nat.ofDigitChars 10 ds 0 := rfl

theorem natOfDigits_append (as bs : List Char) :
    natOfDigits (as ++ bs) = natOfDigits as * 10 ^ bs.length + natOfDigits bs := by
  rw [natOfDigits_eq, natOfDigits_eq, natOfDigits_eq, Nat.ofDigitChars_append,
    Nat.ofDigitChars_eq_ofDigitChars_zero, Nat.mul_comm]

@[simp] theorem natOfDigits_replicate (n : Nat) : natOfDigits (List.replicate n '0') = 0 := by
  rw [natOfDigits_eq, Nat.ofDigitChars_replicate_zero, Nat.mul_zero]

@[simp] theorem natOfDigits_digitsOf (n : Nat) : natOfDigits (digitsOf n) = n :=
  Nat.ofDigitChars_ten_toDigits

theorem toNat_of_isDigit {c : Char} (h : c.isDigit = true) : 48 ≤ c.toNat ∧ c.toNat ≤ 57 := by
  simpa [Char.isDigit, UInt32.le_iff_toNat_le] using h

theorem natOfDigits_singleton (c : Char) : natOfDigits [c] = c.toNat - 48 := by
  simp [natOfDigits]

/-- Zeros in front do not count. -/
theorem natOfDigits_dropWhile (ds : List Char) :
    natOfDigits (ds.dropWhile (· == '0')) = natOfDigits ds := by
  induction ds with
  | nil => rfl
  | cons c ds ih =>
    by_cases hc : c = '0'
    · rw [List.dropWhile_cons_of_pos (by simpa using hc), ih, hc]
      rfl
    · rw [List.dropWhile_cons_of_neg (by simpa using hc)]

theorem natOfDigits_lt {ds : List Char} (h : ∀ c ∈ ds, c.isDigit = true) :
    natOfDigits ds < 10 ^ ds.length := by
  induction ds using List.reverseRecOn with
  | nil => decide
  | append_singleton ds c ih =>
    have hc : c.isDigit = true := h c (by simp)
    have ih := ih fun d hd => h d (by simp [hd])
    have hdigit : natOfDigits [c] < 10 := by
      have := toNat_of_isDigit hc
      rw [natOfDigits_singleton]
      omega
    rw [natOfDigits_append, List.length_append, Nat.pow_add]
    simp only [List.length_singleton, Nat.pow_one]
    omega

/-- A run of digits that starts with no zero is as large as its length says. -/
theorem ten_pow_le_natOfDigits {ds : List Char} (h : ∀ c ∈ ds, c.isDigit = true)
    (hpos : 0 < natOfDigits ds)
    (hzero : ∀ c ∈ ds.head?, c ≠ '0') : 10 ^ (ds.length - 1) ≤ natOfDigits ds := by
  cases ds with
  | nil => exact absurd hpos (by decide)
  | cons c ds =>
    have hc : c.isDigit = true := h c (by simp)
    have hc0 : c ≠ '0' := hzero c rfl
    have hdigit : 1 ≤ natOfDigits [c] := by
      have := toNat_of_isDigit hc
      have : c.toNat ≠ 48 := fun h => hc0 (Char.toNat_inj.1 h)
      rw [natOfDigits_singleton]
      omega
    rw [← List.singleton_append, natOfDigits_append]
    simp only [List.singleton_append, List.length_cons, Nat.add_sub_cancel]
    nlinarith [Nat.one_le_pow ds.length 10 (by decide)]

/-! ### Reading numerals -/

variable {d : Dyadic}

/-- A run of digits with an exponent is read as the double that it rounds to. -/
theorem Rounding.nearest_eq {n count : Nat} {e : Int} (h : Rounding (n * 10 ^ e) d) (hn : 0 < n)
    (hlow : 10 ^ (count - 1) ≤ n) (hhigh : n < 10 ^ count) :
    Number.nearest n count e = d.toFloat := by
  obtain ⟨hleast, hgreatest⟩ := h.range
  have hlt (a b : Int) (h : (10 : ℚ) ^ a < 10 ^ b) : a < b :=
    (zpow_lt_zpow_iff_right₀ (by norm_num)).1 h
  have hcount : 0 < count := by
    rcases Nat.eq_zero_or_pos count with rfl | hcount
    · simp at hhigh
      omega
    · exact hcount
  -- a number with a nearest double lies well within the range in which digits are read at all
  have hsmall : (count : Int) + e ≤ 400 := by
    have hv : (10 : ℚ) ^ ((count - 1 : Nat) + e) < 10 ^ (400 : Int) := by
      calc (10 : ℚ) ^ ((count - 1 : Nat) + e) = 10 ^ (count - 1) * 10 ^ e := by
            rw [zpow_add₀ (by norm_num), zpow_natCast]
        _ ≤ n * 10 ^ e := by
            gcongr
            exact_mod_cast hlow
        _ < 2 ^ (1024 : Int) := hgreatest
        _ ≤ 10 ^ (400 : Int) := by
            have hpow : 2 ^ 1024 ≤ 10 ^ 400 := by decide +kernel
            exact_mod_cast hpow
    have := hlt _ _ hv
    omega
  have hlarge : -400 ≤ (count : Int) + e := by
    have hv : (10 : ℚ) ^ (-400 : Int) < 10 ^ ((count : Int) + e) := by
      calc (10 : ℚ) ^ (-400 : Int) ≤ 2 ^ (-1075 : Int) := by
            have hpow : 2 ^ 1075 ≤ 10 ^ 400 := by decide +kernel
            rw [zpow_neg, zpow_neg]
            gcongr
            exact_mod_cast hpow
        _ ≤ n * 10 ^ e := hleast
        _ < 10 ^ count * 10 ^ e := by
            gcongr
            exact_mod_cast hhigh
        _ = 10 ^ ((count : Int) + e) := by rw [zpow_add₀ (by norm_num), zpow_natCast]
    have := hlt _ _ hv
    omega
  rw [Number.nearest.eq_def, if_neg hn.ne', if_neg (by rw [decimalRange]; omega),
    if_neg (by rw [decimalRange]; omega)]
  cases e with
  | ofNat e => exact Rounding.ofScientific hn (by simpa using h)
  | negSucc e => exact Rounding.ofScientific hn (by simpa [Int.negSucc_eq] using h)

/-- The **value** of a numeral: its digits, scaled by the exponent and the digits after the
point. -/
def numeralValue (front fraction exponent : List Char) : ℚ :=
  natOfDigits (front ++ fraction.drop 1) * 10 ^ (exponentOf exponent - (fraction.drop 1).length)

variable {cs front fraction exponent : List Char}

private theorem ofNumeral_eq (h : IsNumeral cs front fraction exponent) :
    ofNumeral cs = nearest (natOfDigits ((front ++ fraction.drop 1).dropWhile (· == '0')))
      ((front ++ fraction.drop 1).dropWhile (· == '0')).length
      (exponentOf exponent - (fraction.drop 1).length) := by
  have hexponent : ∀ c ∈ exponent.head?, c.isDigit = false ∧ c ≠ '.' := by
    rcases h.exponent with rfl | ⟨sign, ds, rfl, -⟩
    · simp
    · rintro c ⟨⟩
      decide
  have hspan {as bs : List Char} (has : ∀ c ∈ as, c.isDigit = true)
      (hbs : ∀ c ∈ bs.head?, c.isDigit = false) :
      (as ++ bs).takeWhile Char.isDigit = as ∧ (as ++ bs).dropWhile Char.isDigit = bs := by
    rw [List.takeWhile_append_of_pos has, List.dropWhile_append_of_pos has]
    cases bs with
    | nil => simp
    | cons c bs => simp [hbs c (by simp)]
  rw [h.eq, List.append_assoc]
  -- without a fraction the reader has to tell the exponent from a point
  rcases h.fraction with rfl | ⟨ds, rfl, -, hds⟩
  · obtain ⟨htake, hdrop⟩ := hspan h.front.2 fun c hc => (hexponent c hc).1
    rw [List.nil_append]
    unfold ofNumeral
    simp only [htake, hdrop]
    cases exponent with
    | nil => rfl
    | cons c exponent =>
      split
      · rename_i heq
        cases heq
        exact absurd rfl (hexponent '.' rfl).2
      · rfl
  · have hpoint : ∀ c ∈ ('.' :: (ds ++ exponent)).head?, c.isDigit = false := by
      rintro c ⟨⟩
      decide
    obtain ⟨htake, hdrop⟩ := hspan h.front.2 hpoint
    obtain ⟨htake', hdrop'⟩ := hspan hds fun c hc => (hexponent c hc).1
    rw [List.cons_append]
    unfold ofNumeral
    simp only [htake, hdrop, htake', hdrop']
    rfl

/-- **A numeral is read as the double that its value rounds to.** -/
theorem ofNumeral_eq_toFloat (h : IsNumeral cs front fraction exponent)
    (hr : Rounding (numeralValue front fraction exponent) d) : ofNumeral cs = d.toFloat := by
  have hdigits : ∀ c ∈ front ++ fraction.drop 1, c.isDigit = true := by
    intro c hc
    rcases List.mem_append.1 hc with hc | hc
    · exact h.front.2 c hc
    · rcases h.fraction with rfl | ⟨ds, rfl, hds⟩
      · simp at hc
      · exact hds.2 c hc
  rw [ofNumeral_eq h]
  rw [numeralValue, ← natOfDigits_dropWhile] at hr
  have hpos : 0 < natOfDigits ((front ++ fraction.drop 1).dropWhile (· == '0')) := by
    have hrange := hr.range.1
    by_contra hzero
    rw [Nat.eq_zero_of_not_pos hzero, Nat.cast_zero, zero_mul] at hrange
    exact absurd hrange (not_le.2 (by positivity))
  have hdigits' : ∀ c ∈ (front ++ fraction.drop 1).dropWhile (· == '0'), c.isDigit = true :=
    fun c hc => hdigits c ((List.dropWhile_sublist _).subset hc)
  refine hr.nearest_eq hpos (ten_pow_le_natOfDigits hdigits' hpos ?_) (natOfDigits_lt hdigits')
  intro c hc
  have := List.head?_dropWhile_not (· == '0') (front ++ fraction.drop 1)
  rw [Option.mem_def.1 hc] at this
  simpa using this

/-! ### Writing decimals -/

/-- The digits of a positive decimal without the zeros at their end. -/
private theorem normal_spec {s : Decimal} (hs : 0 < s.digits) :
    ∃ ds : List Char, s.normal = (ds, (digitsOf s.digits).length + s.exponent) ∧ IsDigits ds ∧
      (ds.length : Int) ≤ (digitsOf s.digits).length ∧
      (s.digits * 10 ^ s.exponent : ℚ) =
        natOfDigits ds * 10 ^ ((digitsOf s.digits).length + s.exponent - ds.length) := by
  obtain ⟨ds, zeros, hsplit, hzeros⟩ : ∃ ds zeros : List Char, digitsOf s.digits = ds ++ zeros ∧
      s.normal.1 = ds ∧ ∀ c ∈ zeros, c = '0' := by
    refine ⟨_, ((digitsOf s.digits).reverse.takeWhile (· == '0')).reverse, ?_, rfl, ?_⟩
    · rw [Decimal.normal, ← List.reverse_append, List.takeWhile_append_dropWhile,
        List.reverse_reverse]
    · intro c hc
      have hall := List.all_takeWhile (p := (· == '0')) (l := (digitsOf s.digits).reverse)
      simpa using List.all_eq_true.1 hall c (List.mem_reverse.1 hc)
  obtain ⟨hnormal, hzeros⟩ := hzeros
  have hreplicate : zeros = List.replicate zeros.length '0' := List.eq_replicate_of_mem hzeros
  have hvalue : s.digits = natOfDigits ds * 10 ^ zeros.length := by
    have := congrArg natOfDigits hsplit
    rw [natOfDigits_digitsOf, natOfDigits_append, hreplicate, natOfDigits_replicate] at this
    simpa using this
  refine ⟨ds, by rw [← hnormal]; rfl, ⟨?_, ?_⟩, ?_, ?_⟩
  · rintro rfl
    rw [hvalue] at hs
    simp [natOfDigits] at hs
  · intro c hc
    exact Nat.isDigit_of_mem_toDigits (by decide) (by decide) (hsplit ▸ List.mem_append_left _ hc)
  · rw [hsplit, List.length_append]
    omega
  · rw [hsplit, hvalue, List.length_append]
    push_cast
    rw [show (ds.length + zeros.length + s.exponent - ds.length : Int) =
      zeros.length + s.exponent by ring, zpow_add₀ (by norm_num), zpow_natCast]
    ring

private theorem isDigit_of_mem_replicate {n : Nat} {c : Char} (h : c ∈ List.replicate n '0') :
    c.isDigit = true := by
  rw [List.eq_of_mem_replicate h]
  decide

/-- A point with `n` zeros and then all digits behind it. -/
private theorem decimal_behind {ds : List Char} (hds : IsDigits ds) (n : Nat) :
    IsNumeral ('0' :: '.' :: (List.replicate n '0' ++ ds)) ['0']
        ('.' :: (List.replicate n '0' ++ ds)) [] ∧
      numeralValue ['0'] ('.' :: (List.replicate n '0' ++ ds)) [] =
        natOfDigits ds * 10 ^ (-n - ds.length : Int) := by
  refine ⟨⟨by simp, ⟨by simp, by simp⟩, .inr ⟨_, rfl, by simp [hds.1], fun c hc => ?_⟩, .inl rfl⟩,
    ?_⟩
  · exact (List.mem_append.1 hc).elim isDigit_of_mem_replicate (hds.2 c)
  · have hdigits : natOfDigits (['0'] ++ (List.replicate n '0' ++ ds)) = natOfDigits ds := by
      rw [natOfDigits_append, natOfDigits_append, natOfDigits_replicate]
      simp [natOfDigits_singleton]
    simp only [numeralValue, List.drop_succ_cons, List.drop_zero, hdigits, List.length_append,
      List.length_replicate, exponentOf]
    congr 2
    push_cast
    omega

/-- All digits and then `n` zeros, without a point. -/
private theorem decimal_before {ds : List Char} (hds : IsDigits ds) (n : Nat) :
    IsNumeral (ds ++ List.replicate n '0') (ds ++ List.replicate n '0') [] [] ∧
      numeralValue (ds ++ List.replicate n '0') [] [] = natOfDigits ds * 10 ^ (n : Int) := by
  refine ⟨⟨by simp, ⟨by simp [hds.1], fun c hc => ?_⟩, .inl rfl, .inl rfl⟩, ?_⟩
  · exact (List.mem_append.1 hc).elim (hds.2 c) isDigit_of_mem_replicate
  · simp only [numeralValue, List.drop_nil, List.append_nil, natOfDigits_append,
      natOfDigits_replicate, List.length_nil, exponentOf, zpow_natCast]
    push_cast
    simp

/-- A point with the first `n` digits before it and the others behind it. -/
private theorem decimal_between {ds : List Char} (hds : IsDigits ds) {n : Nat} (hn : 0 < n)
    (hlt : n < ds.length) :
    IsNumeral (ds.take n ++ '.' :: ds.drop n) (ds.take n) ('.' :: ds.drop n) [] ∧
      numeralValue (ds.take n) ('.' :: ds.drop n) [] =
        natOfDigits ds * 10 ^ (n - ds.length : Int) := by
  refine ⟨⟨by simp, ⟨fun hnil => ?_, ?_⟩, .inr ⟨_, rfl, ?_, ?_⟩, .inl rfl⟩, ?_⟩
  · rcases List.take_eq_nil_iff.1 hnil with hzero | hnil
    · omega
    · exact hds.1 hnil
  · exact fun c hc => hds.2 c (List.mem_of_mem_take hc)
  · rw [Ne, List.drop_eq_nil_iff]
    omega
  · exact fun c hc => hds.2 c (List.mem_of_mem_drop hc)
  · simp only [numeralValue, List.drop_succ_cons, List.drop_zero, List.take_append_drop,
      List.length_drop, exponentOf]
    congr 2
    omega

/-- A point with the digits of a decimal before and behind it. -/
private theorem decimal_positional {ds : List Char} {p : Int} (hds : IsDigits ds) :
    ∃ front fraction, IsNumeral
      (if p ≤ 0 then "0." ++ String.ofList (List.replicate (-p).toNat '0') ++ String.ofList ds
        else if ds.length ≤ p.toNat then
          String.ofList ds ++ String.ofList (List.replicate (p.toNat - ds.length) '0')
        else
          String.ofList (ds.take p.toNat) ++ "." ++ String.ofList (ds.drop p.toNat)).toList
        front fraction [] ∧
      numeralValue front fraction [] = natOfDigits ds * 10 ^ (p - ds.length) ∧
      ((ds.length : Int) ≤ p → fraction = []) := by
  have hlength : 0 < ds.length := List.length_pos_iff.2 hds.1
  split
  · rename_i hp
    obtain ⟨hnumeral, hvalue⟩ := decimal_behind hds (-p).toNat
    rw [show (-((-p).toNat : Int)) = p by omega] at hvalue
    exact ⟨_, _, by simpa using hnumeral, hvalue, by omega⟩
  · split
    · rename_i hp hle
      obtain ⟨hnumeral, hvalue⟩ := decimal_before hds (p.toNat - ds.length)
      rw [show ((p.toNat - ds.length : Nat) : Int) = p - ds.length by omega] at hvalue
      exact ⟨_, _, by simpa using hnumeral, hvalue, fun _ => rfl⟩
    · rename_i hp hlt
      obtain ⟨hnumeral, hvalue⟩ := decimal_between hds (n := p.toNat) (by omega) (by omega)
      rw [show (p.toNat : Int) = p by omega] at hvalue
      exact ⟨_, _, by simpa using hnumeral, hvalue, by omega⟩

/-- One digit before the point, and an exponent. -/
private theorem decimal_scientific {ds : List Char} {p : Int} (hds : IsDigits ds) :
    ∃ front fraction exponent, IsNumeral
      (String.ofList (ds.take 1) ++
        (if (ds.drop 1).isEmpty then "" else "." ++ String.ofList (ds.drop 1)) ++
        layout.exponentText (p - 1)).toList front fraction exponent ∧
      numeralValue front fraction exponent = natOfDigits ds * 10 ^ (p - ds.length) := by
  have hlength : 0 < ds.length := List.length_pos_iff.2 hds.1
  obtain ⟨sign, hsign, htext, hvalue⟩ : ∃ sign, (sign = '+' ∨ sign = '-') ∧
      (layout.exponentText (p - 1)).toList = 'e' :: sign :: digitsOf (p - 1).natAbs ∧
      exponentOf ('e' :: sign :: digitsOf (p - 1).natAbs) = p - 1 := by
    by_cases hneg : p - 1 < 0
    · refine ⟨'-', .inr rfl, by simp [Layout.exponentText, layout, hneg], ?_⟩
      change -(natOfDigits (digitsOf (p - 1).natAbs) : Int) = p - 1
      rw [natOfDigits_digitsOf]
      omega
    · refine ⟨'+', .inl rfl, by simp [Layout.exponentText, layout, hneg], ?_⟩
      change (natOfDigits (digitsOf (p - 1).natAbs) : Int) = p - 1
      rw [natOfDigits_digitsOf]
      omega
  have hexponent : IsDigits (digitsOf (p - 1).natAbs) :=
    ⟨Nat.toDigits_ne_nil, fun c hc => Nat.isDigit_of_mem_toDigits (by decide) (by decide) hc⟩
  have hfront : IsDigits (ds.take 1) := by
    refine ⟨fun hnil => ?_, fun c hc => hds.2 c (List.mem_of_mem_take hc)⟩
    rcases List.take_eq_nil_iff.1 hnil with hzero | hnil
    · omega
    · exact hds.1 hnil
  refine ⟨ds.take 1, if (ds.drop 1).isEmpty then [] else '.' :: ds.drop 1, _, ⟨?_, hfront, ?_,
    .inr ⟨sign, _, rfl, hsign, hexponent⟩⟩, ?_⟩
  · rw [String.toList_append, htext, String.toList_append]
    split <;> simp
  · split
    · exact .inl rfl
    · rename_i hback
      exact .inr ⟨_, rfl, by simpa using hback, fun c hc => hds.2 c (List.mem_of_mem_drop hc)⟩
  -- leading digit and fraction are the digits again, and the exponent makes up for the point
  · have hfraction : (if (ds.drop 1).isEmpty then [] else '.' :: ds.drop 1).drop 1 = ds.drop 1 := by
      split
      · rename_i hback
        rw [List.isEmpty_iff.1 hback]
        rfl
      · rfl
    rw [numeralValue, hfraction, hvalue, List.take_append_drop, List.length_drop]
    congr 2
    omega

/-- **A positive decimal is written as a numeral with its value**; one without a fraction and with
at most twenty-one digits is written as digits only. -/
theorem decimal_spec {s : Decimal} (hs : 0 < s.digits) :
    ∃ front fraction exponent, IsNumeral (layout.decimal s).toList front fraction exponent ∧
      numeralValue front fraction exponent = s.digits * 10 ^ s.exponent ∧
      (0 ≤ s.exponent → (s.digits * 10 ^ s.exponent : ℚ) < 10 ^ 21 → fraction = [] ∧
        exponent = []) := by
  obtain ⟨ds, hnormal, hds, hlength, hvalue⟩ := normal_spec hs
  rw [hvalue]
  have hleast : layout.leastPoint = -5 := rfl
  have hgreatest : layout.greatestPoint = 21 := rfl
  unfold Layout.decimal
  simp only [hnormal, hleast, hgreatest]
  split
  · obtain ⟨front, fraction, hnumeral, hnumber, hfraction⟩ :=
      decimal_positional (p := (digitsOf s.digits).length + s.exponent) hds
    exact ⟨front, fraction, [], hnumeral, hnumber, fun hexponent _ => ⟨hfraction (by omega), rfl⟩⟩
  · rename_i hpoint
    obtain ⟨front, fraction, exponent, hnumeral, hnumber⟩ :=
      decimal_scientific (p := (digitsOf s.digits).length + s.exponent) hds
    refine ⟨front, fraction, exponent, hnumeral, hnumber, fun hexponent hbound => ?_⟩
    have hten := ten_pow_le_of_pos hs
    have hlength' : 0 < (digitsOf s.digits).length := Nat.length_toDigits_pos
    have hpow : (10 : ℚ) ^ (((digitsOf s.digits).length - 1 : Nat) + s.exponent) <
      10 ^ (21 : Int) := by
      rw [zpow_add₀ (by norm_num), zpow_natCast]
      refine lt_of_le_of_lt ?_ hbound
      rw [← hvalue]
      gcongr
      exact_mod_cast hten
    have := (zpow_lt_zpow_iff_right₀ (by norm_num)).1 hpow
    omega

end ChartNet.Number
