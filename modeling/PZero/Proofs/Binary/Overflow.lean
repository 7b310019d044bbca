import PZero.Proofs.Binary.Scale

namespace PZero.Binary

variable {f g : Format}

theorem convert_infinity (hf : f.Proper) (g : Format) (negative : Bool) :
    convert f g (withSign f negative f.infinity) = withSign g negative g.infinity := by
  rw [convert, decode_infinity hf]

theorem convert_finite (hf : f.Proper) (hg : g.Proper) (negative : Bool) {n : ℕ}
    (hn : n < f.infinity) :
    ∃ s : f.Position, s.place = n ∧ ∃ k ≤ g.infinity,
      convert f g (withSign f negative n) = withSign g negative k ∧
      (k = g.infinity ↔ g.brink.value ≤ s.value) := by
  obtain ⟨mantissa, exponent, s, hdecode, hvalue, hplace⟩ := decode_finite hf negative hn
  have hden := scaleDown_den_pos Nat.one_pos mantissa (-exponent)
  refine ⟨s, hplace, _, roundMagnitude_le g (scaleDown mantissa 1 (-exponent)).1
    (scaleDown mantissa 1 (-exponent)).2, ?_, ?_⟩
  · rw [convert, hdecode]
    rfl
  · rw [roundMagnitude_eq_infinity_iff hg _ hden, scaleDown_div, hvalue, zpow_neg, div_inv_eq_mul,
      Nat.cast_one, div_one]

theorem single_brink : single.brink.value = 2 ^ 128 - 2 ^ 103 := by
  have hexponent : single.least + (single.brink.step : ℤ) = 104 := by decide
  have hlead : single.lead = 2 ^ 23 := rfl
  rw [Format.Position.value, hexponent]
  simp only [Format.brink, hlead]
  norm_num

theorem lt_double_brink : (2 : ℚ) ^ 128 < double.brink.value := by
  have hexponent : double.least + (double.brink.step : ℤ) = (971 : ℕ) := by decide
  have hlead : double.lead = 2 ^ 52 := rfl
  have hmantissa : 1 ≤ double.brink.mantissa := by
    simp only [Format.brink, hlead]
    norm_num
  rw [Format.Position.value, hexponent, zpow_natCast]
  calc (2 : ℚ) ^ 128 < 2 ^ 971 := pow_lt_pow_right₀ one_lt_two (by decide)
    _ ≤ double.brink.mantissa * 2 ^ 971 := le_mul_of_one_le_left (by positivity) hmantissa

/-- A number between two powers of two around the brink of single precision, among the doubles. -/
def nearBrink (mantissa : ℚ) (hlow : 2 ^ 52 ≤ mantissa) (hhigh : mantissa < 2 ^ 53) :
    double.Position where
  mantissa := mantissa
  step := 1149
  small := hhigh.trans_eq (by norm_num [double, Format.lead])
  full := .inr (le_of_eq_of_le (by norm_num [double, Format.lead]) hlow)

section

variable {mantissa : ℚ} {hlow : 2 ^ 52 ≤ mantissa} {hhigh : mantissa < 2 ^ 53}

theorem value_nearBrink : (nearBrink mantissa hlow hhigh).value = mantissa * 2 ^ 75 := by
  have hexponent : double.least + (1149 : ℕ) = (75 : ℕ) := by decide
  rw [Format.Position.value, nearBrink, hexponent, zpow_natCast]

theorem place_nearBrink :
    (nearBrink mantissa hlow hhigh).place = 1149 * 2 ^ 52 + mantissa := by
  have hlead : double.lead = 2 ^ 52 := rfl
  rw [Format.Position.place, nearBrink, hlead]
  norm_num

end

/-- The brink of single precision as a double. -/
def brinkPattern : ℕ := 1149 * 2 ^ 52 + (2 ^ 53 - 2 ^ 28)

theorem convert_double_single (negative : Bool) {n : ℕ} (hn : n ≤ double.infinity) :
    ∃ k ≤ single.infinity,
      convert double single (withSign double negative n) = withSign single negative k ∧
      (k = single.infinity ↔ brinkPattern ≤ n) := by
  rcases hn.lt_or_eq with hlt | rfl
  · obtain ⟨s, hplace, k, hk, hconvert, hbrink⟩ :=
      convert_finite proper_double proper_single negative hlt
    refine ⟨k, hk, hconvert, ?_⟩
    let edge := nearBrink (2 ^ 53 - 2 ^ 28) (by norm_num) (by norm_num)
    have hvalue : single.brink.value = edge.value := by
      rw [single_brink, value_nearBrink]
      norm_num
    have hpattern : edge.place = brinkPattern := by
      rw [place_nearBrink]
      norm_num [brinkPattern]
    rw [hbrink, hvalue, Format.Position.value_le_iff, hpattern, hplace, Nat.cast_le]
  · exact ⟨_, le_rfl, convert_infinity proper_double single negative,
      iff_of_true rfl (by decide)⟩

theorem convert_single_double (negative : Bool) {n : ℕ} (hn : n ≤ single.infinity) :
    ∃ k ≤ double.infinity,
      convert single double (withSign single negative n) = withSign double negative k ∧
      (k = double.infinity ↔ n = single.infinity) := by
  rcases hn.lt_or_eq with hlt | rfl
  · obtain ⟨s, hplace, k, hk, hconvert, hbrink⟩ :=
      convert_finite proper_single proper_double negative hlt
    refine ⟨k, hk, hconvert, ?_⟩
    -- An infinite exponent would be the next one in the row, and still far from the brink.
    let top : single.Position :=
      ⟨2 ^ 23, 254, by norm_num [single, Format.lead], .inr (by norm_num [single, Format.lead])⟩
    have htop : top.value = 2 ^ 128 := by
      have hexponent : single.least + (top.step : ℤ) = 105 := by decide
      rw [Format.Position.value, hexponent]
      norm_num [top]
    have hplaces : s.place ≤ top.place := by
      have hlead : single.lead = 2 ^ 23 := rfl
      have hinf : single.infinity = 255 * 2 ^ 23 := rfl
      rw [hplace, Format.Position.place]
      simp only [top, hlead]
      rw [hinf] at hn
      exact_mod_cast hn
    have hsmall : s.value ≤ 2 ^ 128 := htop ▸ (s.value_le_iff top).2 hplaces
    rw [hbrink]
    exact iff_of_false (hsmall.trans_lt lt_double_brink).not_ge hlt.ne
  · exact ⟨_, le_rfl, convert_infinity proper_single double negative, iff_of_true rfl rfl⟩

/-- A double whose exponent is not all ones. -/
def IsFinite (bits : UInt64) : Prop := bits.toNat / 2 ^ 52 % 2 ^ 11 ≠ 2 ^ 11 - 1

theorem toNat_withSign (negative : Bool) {n : ℕ} (hn : n ≤ double.infinity) :
    (UInt64.ofNat (withSign double negative n)).toNat = withSign double negative n := by
  refine UInt64.toNat_ofNat_of_lt' ?_
  have hinf : double.infinity = (2 ^ 11 - 1) * 2 ^ 52 := rfl
  have hsign : double.signBit = 2 ^ 63 := rfl
  have hsize : UInt64.size = 2 ^ 64 := rfl
  cases negative with
  | false =>
    change n < _
    omega
  | true =>
    change double.signBit + n < _
    omega

theorem isFinite_withSign (negative : Bool) {n : ℕ} (hn : n ≤ double.infinity) :
    IsFinite (UInt64.ofNat (withSign double negative n)) ↔ n ≠ double.infinity := by
  obtain ⟨-, hfield, -⟩ := fields_withSign proper_double negative hn
  have hinf : double.infinity = (2 ^ 11 - 1) * 2 ^ 52 := rfl
  have hlead : double.lead = 2 ^ 52 := rfl
  have hbits : Nat.pow 2 double.exponentBits = 2 ^ 11 := rfl
  rw [hlead, hbits] at hfield
  rw [IsFinite, toNat_withSign negative hn, hfield]
  omega

/-- What is rounded to a double and then to a single is finite below half a unit of the double under
the brink. -/
theorem isFinite_toSingle_iff (negative : Bool) (num : ℕ) {den : ℕ} (hden : 0 < den) :
    IsFinite (toSingle (UInt64.ofNat (withSign double negative (roundMagnitude double num den)))) ↔
      (num : ℚ) / den < 2 ^ 128 - 2 ^ 103 - 2 ^ 74 := by
  have hn := roundMagnitude_le double num den
  obtain ⟨k, hk, hsingle, hk'⟩ := convert_double_single negative hn
  obtain ⟨m, hm, hdouble, hm'⟩ := convert_single_double negative hk
  let edge := nearBrink (2 ^ 53 - 2 ^ 28 - 1 / 2) (by norm_num) (by norm_num)
  have hvalue : edge.value = 2 ^ 128 - 2 ^ 103 - 2 ^ 74 := by
    rw [value_nearBrink]
    norm_num
  have hpattern : edge.place = (brinkPattern : ℚ) - 1 / 2 := by
    rw [place_nearBrink]
    norm_num [brinkPattern]
  have hround : brinkPattern ≤ roundMagnitude double num den ↔
      (2 ^ 128 - 2 ^ 103 - 2 ^ 74 : ℚ) ≤ num / den := by
    obtain ⟨s, hs, hround⟩ := exists_position proper_double num hden
    rw [hround brinkPattern (by decide) (by decide), ← hpattern, ← Format.Position.value_le_iff, hs,
      hvalue]
  rw [toSingle, toNat_withSign negative hn, hsingle, hdouble, isFinite_withSign negative hm, ne_eq,
    hm', hk', hround, not_le]

end PZero.Binary
