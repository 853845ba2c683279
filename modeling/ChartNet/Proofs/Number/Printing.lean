import ChartNet.Proofs.Number.Numerals

/-!
# Texts of numbers

**The text of a finite number reads back as the number**, only the sign of a zero is lost. The text
of a real always shows a point or an exponent, that of an int below `10 ^ 21` never does.
-/

namespace ChartNet.Number

open Token (IsDigits IsNumeral)

variable {d : Dyadic} {cs front fraction exponent : List Char}

/-- A number, whose zero has no sign. -/
def unsignedZero (x : Float) : Float := if x == 0 then 0 else x

/-- What rounds to a double below `10 ^ 21` is below it too. -/
private theorem Rounding.lt_ten_pow {v : ℚ} (h : Rounding v d)
    (hd : d.exponent < 17 ∨ d.exponent = 17 ∧ d.significand < 7629394531250000) : v < 10 ^ 21 := by
  have hpow : (0 : ℚ) < 2 ^ d.exponent := by positivity
  have hhigh := h.nearest.2.1
  rw [div_le_iff₀ hpow] at hhigh
  rcases hd with hd | ⟨hd, hm⟩
  · have hlt : (d.significand : ℚ) + 1 ≤ 2 ^ 53 := by exact_mod_cast h.canonical.lt
    calc v ≤ (d.significand + 1 / 2) * 2 ^ d.exponent := hhigh
      _ ≤ 2 ^ 53 * 2 ^ (16 : Int) := by
        gcongr
        · linarith
        · norm_num
        · omega
      _ < 10 ^ 21 := by norm_num
  · have hlt : (d.significand : ℚ) + 1 ≤ 7629394531250000 := by exact_mod_cast hm
    rw [hd] at hhigh
    norm_num at hhigh ⊢
    linarith

/-- A finite number is written as a numeral that is read back, after a minus if it is negative. -/
theorem text_spec {x : Float} {d : Dyadic} (h : dyadic? x = some d) :
    ∃ cs front fraction exponent, IsNumeral cs front fraction exponent ∧
      text x = (if x < 0 then "-" else "") ++ String.ofList cs ∧
      (d.significand ≠ 0 → Rounding (numeralValue front fraction exponent) (d.withSign false)) ∧
      (d.significand = 0 → cs = ['0'] ∧ fraction = [] ∧ exponent = []) ∧
      (d.isWhole = true → (d.exponent < 17 ∨ d.exponent = 17 ∧ d.significand < 7629394531250000) →
        fraction = [] ∧ exponent = []) := by
  have hlt := lt_zero_iff h
  have hcanonical := (bits_of_dyadic? h).2
  by_cases hm : d.significand = 0
  · refine ⟨['0'], ['0'], [], [], ⟨rfl, ⟨by simp, by simp⟩, .inl rfl, .inl rfl⟩, ?_,
      fun hne => absurd hm hne, fun _ => ⟨rfl, rfl, rfl⟩, fun _ _ => ⟨rfl, rfl⟩⟩
    rw [if_neg (by simp [hlt, hm]), text, Layout.write, h]
    simp [hm]
  · obtain ⟨s, hs, hrounding, hwhole⟩ := shortest?_spec (d := d.withSign false) rfl
      (Nat.pos_of_ne_zero hm) (hcanonical.withSign false)
    have hpos : 0 < s.digits := by
      have hrange := hrounding.range.1
      by_contra hzero
      rw [Nat.eq_zero_of_not_pos hzero, Nat.cast_zero, zero_mul] at hrange
      exact absurd hrange (not_le.2 (by positivity))
    obtain ⟨front, fraction, exponent, hnumeral, hvalue, hdigits⟩ := decimal_spec hpos
    refine ⟨_, front, fraction, exponent, hnumeral, ?_, fun _ => hvalue ▸ hrounding,
      fun hzero => absurd hzero hm, fun hint hbound => hdigits (hwhole hint) ?_⟩
    · have hs' : shortest? d.significand d.exponent = some s := hs
      rw [text, Layout.write, h]
      simp only [hm, if_false, hs', String.ofList_toList]
      simp only [hlt, hm, ne_eq, not_false_eq_true, and_true]
    · exact hrounding.lt_ten_pow hbound

/-- A negative number is the opposite of its absolute value. -/
private theorem neg_withSign_toFloat {x : Float} (h : dyadic? x = some d) (hd : d.negative = true) :
    -(d.withSign false).toFloat = x := by
  have habs := dyadic?_toFloat ((bits_of_dyadic? h).2.withSign false)
  rw [neg_eq_toFloat habs, eq_toFloat_of_dyadic? h]
  congr 1
  obtain ⟨negative, significand, exponent⟩ := d
  cases hd
  rfl

/-- A numeral is read back. -/
private theorem ofNumeral_eq_unsignedZero {x : Float} (h : dyadic? x = some d)
    (hnumeral : IsNumeral cs front fraction exponent)
    (hr : d.significand ≠ 0 → Rounding (numeralValue front fraction exponent) (d.withSign false))
    (hzero : d.significand = 0 → ofNumeral cs = 0) :
    (if x < 0 then -ofNumeral cs else ofNumeral cs) = unsignedZero x := by
  have hlt := lt_zero_iff h
  have hbeq := beq_zero_iff h
  by_cases hm : d.significand = 0
  · rw [if_neg (by simp [hlt, hm]), unsignedZero, if_pos (hbeq.2 hm), hzero hm]
  · have hread := ofNumeral_eq_toFloat hnumeral (hr hm)
    have hself : unsignedZero x = x := if_neg fun h => hm (hbeq.1 h)
    rw [hself, hread]
    by_cases hd : d.negative = true
    · rw [if_pos (hlt.2 ⟨hd, hm⟩), neg_withSign_toFloat h hd]
    · rw [if_neg (by simp [hlt, hd]), eq_toFloat_of_dyadic? h]
      congr 1
      obtain ⟨negative, significand, exponent⟩ := d
      cases (Bool.eq_false_iff.2 hd : negative = false)
      rfl

/-- A numeral has a fraction or an exponent if and only if a point or a mark shows it. -/
theorem any_point_iff (h : IsNumeral cs front fraction exponent) {p : Char → Bool}
    (hpoint : p '.' = true) (hmark : p 'e' = true) (hdigit : ∀ c, c.isDigit = true → p c = false) :
    cs.any p = true ↔ fraction ≠ [] ∨ exponent ≠ [] := by
  have hfront : front.any p = false :=
    List.any_eq_false.2 fun c hc => by simp [hdigit c (h.front.2 c hc)]
  rw [h.eq, List.any_append, List.any_append, hfront, Bool.false_or, Bool.or_eq_true]
  refine or_congr ?_ ?_
  · rcases h.fraction with rfl | ⟨ds, rfl, -⟩
    · simp
    · simp [hpoint]
  · rcases h.exponent with rfl | ⟨sign, ds, rfl, -⟩
    · simp
    · simp [hmark]

/-- A point and a zero behind a numeral do not change its value. -/
theorem numeralValue_point_zero (front : List Char) :
    numeralValue front ['.', '0'] [] = numeralValue front [] [] := by
  have hzero : natOfDigits (front ++ ['0']) = natOfDigits front * 10 := by
    rw [natOfDigits_append, natOfDigits_singleton]
    simp
  simp only [numeralValue, List.drop_succ_cons, List.drop_zero, hzero, List.drop_nil,
    List.append_nil, exponentOf]
  push_cast
  norm_num
  ring

/-- A digit is neither a point nor a mark. -/
theorem ne_of_isDigit {c : Char} (h : c.isDigit = true) : c ≠ '.' ∧ c ≠ 'e' ∧ c ≠ 'E' := by
  have hc := toNat_of_isDigit h
  refine ⟨?_, ?_, ?_⟩ <;> rintro rfl <;> revert hc <;> decide

end ChartNet.Number

namespace ChartNet

open Token (IsNumeral)

/-- A number of a kind is **printable**: a real is finite, an int is written without an exponent. -/
def NumKind.Printable : NumKind → Float → Prop
  | .int, x => x.abs < 1e21
  | .real, x => x.isFinite = true

instance : (kind : NumKind) → (x : Float) → Decidable (kind.Printable x)
  | .int, x => inferInstanceAs (Decidable (x.abs < 1e21))
  | .real, x => inferInstanceAs (Decidable (x.isFinite = true))

open Number

/-- **A printable number is written as a numeral that reads back**, after a minus if it is negative.
The numeral has a fraction or an exponent if and only if the number is real. -/
theorem NumKind.print_spec {kind : NumKind} {x : Float} (h : kind.Printable x)
    (hint : kind = .int → NoFraction x) :
    ∃ cs front fraction exponent, IsNumeral cs front fraction exponent ∧
      (kind = .real ↔ fraction ≠ [] ∨ exponent ≠ []) ∧
      kind.print x = (if x < 0 then "-" else "") ++ String.ofList cs ∧
      (if x < 0 then -ofNumeral cs else ofNumeral cs) = unsignedZero x := by
  cases kind with
  | int =>
    obtain ⟨d, hd, hbound⟩ := exists_of_abs_lt h
    obtain ⟨cs, front, fraction, exponent, hnumeral, htext, hrounding, hzero, hdigits⟩ :=
      text_spec hd
    obtain ⟨rfl, rfl⟩ := hdigits (hint rfl d hd) hbound
    refine ⟨cs, front, [], [], hnumeral, by simp, htext,
      ofNumeral_eq_unsignedZero hd hnumeral hrounding fun hm => ?_⟩
    rw [(hzero hm).1]
    rfl
  | real =>
    have hfinite : x.isFinite = true := h
    obtain ⟨d, hd⟩ := Option.isSome_iff_exists.1 (isFinite_eq x ▸ h : (dyadic? x).isSome = true)
    obtain ⟨cs, front, fraction, exponent, hnumeral, htext, hrounding, hzero, -⟩ := text_spec hd
    have hany : ((text x).toList.any fun c => c == '.' || c == 'e') =
        cs.any fun c => c == '.' || c == 'e' := by
      rw [htext, String.toList_append, String.toList_ofList, List.any_append]
      split <;> simp
    have hiff := any_point_iff hnumeral (p := fun c => c == '.' || c == 'e') rfl rfl fun c hc => by
      simp [ne_of_isDigit hc]
    by_cases hpoint : fraction ≠ [] ∨ exponent ≠ []
    · refine ⟨cs, front, fraction, exponent, hnumeral, by simp [hpoint], ?_,
        ofNumeral_eq_unsignedZero hd hnumeral hrounding fun hm => ?_⟩
      · rw [NumKind.print, hany, hiff.2 hpoint, ← htext]
        simp
      · rcases hpoint with hpoint | hpoint
        · exact absurd (hzero hm).2.1 hpoint
        · exact absurd (hzero hm).2.2 hpoint
    · -- nothing shows that the number is real, so a point and a zero are added
      simp only [not_or, not_not] at hpoint
      obtain ⟨rfl, rfl⟩ := hpoint
      have hcs : cs = front := by simpa using hnumeral.eq
      have hpointed : IsNumeral (cs ++ ['.', '0']) front ['.', '0'] [] :=
        ⟨by simp [hcs], hnumeral.front, .inr ⟨['0'], rfl, by simp, by simp⟩, .inl rfl⟩
      refine ⟨cs ++ ['.', '0'], front, ['.', '0'], [], hpointed, by simp, ?_,
        ofNumeral_eq_unsignedZero hd hpointed
          (fun hm => numeralValue_point_zero front ▸ hrounding hm)
          fun hm => ?_⟩
      · have hnone := hiff.not.2 (by simp)
        rw [NumKind.print, hany, htext]
        simp only [hfinite, Bool.not_true, Bool.false_or, hnone]
        rw [if_neg Bool.false_ne_true, String.append_assoc, String.ofList_append]
      · rw [(hzero hm).1]
        rfl

end ChartNet
